/-
This file proves that the hash vault keeps a node from equivocating, and that it does
not get in the way of a deterministic application. What was pushed stays in the vault
or below its boundary: no write takes a hash away from the boundary on, none moves the
boundary back, and a restart finds what the last write left.
-/

import SeiChain.HashVault.Execution

namespace SeiChain.HashVault

open Library List Option Write Node

/-! ### What was pushed stays guarded -/

section

variable (records : Records)

/-- The hash that the loop is about to commit or to push is in the vault. -/
def Phase.Recorded : Phase → Prop
  | repushing height hash | committing height hash | pushing height hash _ =>
    records.boundary ≤ height ∧ records.hashes height = some hash
  | _ => True

/-- A pushed hash is in the vault or its height is below the boundary. -/
def Guards (entry : Nat × Bytes) : Prop :=
  entry.1 < records.boundary ∨ records.hashes entry.1 = some entry.2

end

structure Guarded (config : Config) (node : Node) (records : Records) : Prop where
  stored : Stored config node records
  guards : ∀ entry ∈ node.pushed, Guards records entry
  recorded : node.phase.Recorded records
  agree : ∀ first ∈ node.pushed, ∀ second ∈ node.pushed, first.1 = second.1 → first.2 = second.2

variable {config : Config} {node after : Node} {event : Event} {retainHeight : Int}
  {records left : Records} {boundary height : Nat} {entry : Nat × Bytes} {hash : Bytes}
  {phase resume : Phase} {conditions : Conditions} {answer : Except VaultError Unit}
  {write : Write} {result : Vault × Database}

theorem Guards.written (guards : Guards records entry) (allowed : write.Allowed records) :
    Guards (write.applyRecords records) entry := by
  cases write with
  | record height hash =>
    refine guards.imp id fun recorded => ?_
    have different : entry.1 ≠ height := by
      intro same
      rw [same, allowed] at recorded
      cases recorded
    exact (hashes_record_of_ne _ _ different).trans recorded
  | prune boundary =>
    by_cases below : entry.1 < boundary
    · exact .inl below
    · rcases guards with under | recorded
      · exact absurd (under.trans allowed) below
      · exact .inr ((hashes_prune _ (not_lt.mp below)).trans recorded)

theorem Guards.effect (guards : Guards records entry)
    (effect : Effect config.sha256 node.db records write result left) : Guards left entry := by
  cases effect with
  | unchanged => exact guards
  | written allowed => exact guards.written allowed

theorem recorded_firstPhase (records : Records) (last : Int) (lastHash : Bytes) (ready : Bool) :
    (firstPhase config last lastHash ready).Recorded records := by
  rw [firstPhase]
  split
  · split
    · trivial
    · cases safeCast config.initialHeight with
      | none => trivial
      | some => trivial
    · trivial
  · trivial

theorem recorded_afterVaultCommit (call : node.phase.commitCall = some (height, hash, resume))
    (answered : Answered conditions records left height hash answer) :
    (afterVaultCommit resume answer).Recorded left := by
  cases answer with
  | ok => rcases commitCall_running call with ⟨_, rfl⟩ | ⟨_, rfl⟩ <;> exact answered
  | error error => cases error <;> trivial

theorem recorded_of_pushCall (recorded : node.phase.Recorded records)
    (call : node.phase.pushCall = some (height, hash, resume)) :
    records.boundary ≤ height ∧ records.hashes height = some hash := by
  rcases pushCall_running call with ⟨phase, _⟩ | ⟨retainHeight, phase, _⟩
  all_goals
    rw [phase] at recorded
    exact recorded

theorem recorded_after_push
    (call : node.phase.pushCall = some (height, hash, resume)) : resume.Recorded records := by
  rcases pushCall_running call with ⟨_, rfl⟩ | ⟨_, _, rfl⟩
  · trivial
  · trivial

/-- A guarded height has one pushed hash at most. -/
theorem Guards.unique (guards : Guards records entry) (same : entry.1 = height)
    (above : records.boundary ≤ height) (recorded : records.hashes height = some hash) :
    entry.2 = hash := by
  rcases guards with below | found
  · exact absurd (same ▸ below) (not_lt.mpr above)
  · rw [same, recorded] at found
    exact (Option.some.inj found).symm

theorem Guarded.push (guarded : Guarded config node records)
    (call : node.phase.pushCall = some (height, hash, resume))
    (stored : Stored config { node with phase, pushed := (height, hash) :: node.pushed } records)
    (recordedPhase : phase.Recorded records) :
    Guarded config { node with phase, pushed := (height, hash) :: node.pushed } records := by
  obtain ⟨above, recorded⟩ := recorded_of_pushCall guarded.recorded call
  refine ⟨stored, fun entry member => ?_, recordedPhase, ?_⟩
  · rcases mem_cons.mp member with rfl | old
    · exact .inr recorded
    · exact guarded.guards entry old
  · intro first firstMember second secondMember same
    rcases mem_cons.mp firstMember with rfl | firstOld <;>
      rcases mem_cons.mp secondMember with rfl | secondOld
    · rfl
    · exact ((guarded.guards second secondOld).unique same.symm above recorded).symm
    · exact (guarded.guards first firstOld).unique same above recorded
    · exact guarded.agree first firstOld second secondOld same

theorem Guarded.step (guarded : Guarded config node records)
    (acts : Acts config node records event after left) : Guarded config after left := by
  have stored := guarded.stored.step acts
  cases acts with
  | opened => exact ⟨stored, guarded.guards, recorded_firstPhase _ _ _ _, guarded.agree⟩
  | vaultCommit call effect answered =>
    exact ⟨stored, fun entry member => (guarded.guards entry member).effect effect,
      recorded_afterVaultCommit call answered, guarded.agree⟩
  | @finalize height appHash =>
    refine ⟨stored, guarded.guards, ?_, guarded.agree⟩
    cases appHash with
    | none => trivial
    | some => trivial
  | appCommit committing =>
    have recorded := guarded.recorded
    rw [committing] at recorded
    exact ⟨stored, guarded.guards, recorded, guarded.agree⟩
  | failedOpen | failedAppCommit | failedPrune | crash =>
    exact ⟨stored, guarded.guards, trivial, guarded.agree⟩
  | @push ok _ _ _ call =>
    refine guarded.push call stored ?_
    cases ok with
    | true => exact recorded_after_push call
    | false => trivial
  | prune _ _ effect | crashInWrite _ effect =>
    exact ⟨stored, fun entry member => (guarded.guards entry member).effect effect, trivial,
      guarded.agree⟩

/-! ### A deterministic application is not stopped -/

variable (appHash : Nat → Bytes)

/-- The application gives each height its hash, reports what it committed and does not let go of
more than that, and the vault's reads and writes do not fail; a write may still be cut off by a
crash. The application executes the heights that it can report, which are signed numbers. -/
def Deterministic (node : Node) : Event → Prop
  | .start readOk last lastHash _ =>
    readOk = true ∧ last = node.committed ∧ (node.committed = 0 ∨ lastHash = appHash node.committed)
  | .vaultCommit conditions => conditions.readOk = true ∧ conditions.writeOk = true
  | .finalize (some hash) =>
    ∀ height, node.phase = .executing height → height < 2 ^ 63 ∧ hash = appHash height
  | .appCommit (.succeeded retainHeight) =>
    ∀ height hash, node.phase = .committing height hash → retainHeight ≤ height
  | .prune _ conditions => conditions.readOk = true ∧ conditions.writeOk = true
  | _ => True

/-- The records are those of the application, and none from its committed height on is gone. -/
structure Records.Matches (committed : Nat) (records : Records) : Prop where
  boundary_le : records.boundary ≤ committed
  hashes : ∀ height hash, records.hashes height = some hash → hash = appHash height

def Phase.Matches (committed : Nat) : Phase → Prop
  | down => True
  | halted _ => False
  | recommitting height hash => height = committed ∧ height < 2 ^ 63 ∧ hash = appHash height
  | repushing height _ => height = committed ∧ height < 2 ^ 63
  | executing height => committed ≤ height
  | recording height hash => committed ≤ height ∧ height < 2 ^ 63 ∧ hash = appHash height
  | committing height _ => committed ≤ height ∧ height < 2 ^ 63
  | pushing height _ retainHeight | pruning height retainHeight =>
    height = committed ∧ height < 2 ^ 63 ∧ retainHeight ≤ height

structure Undisturbed (config : Config) (appHash : Nat → Bytes) (node : Node)
    (records : Records) : Prop where
  stored : Stored config node records
  records : records.Matches appHash node.committed
  phase : node.phase.Matches appHash node.committed

variable {appHash : Nat → Bytes} {committed : Nat}

/-- A write of a hash of the application, or of a boundary up to which it has committed. -/
def Write.Matches (appHash : Nat → Bytes) (committed : Nat) : Write → Prop
  | record height hash => hash = appHash height
  | prune boundary => boundary ≤ committed

theorem Records.Matches.written (recordsMatch : records.Matches appHash committed)
    (writeMatches : write.Matches appHash committed) :
    (write.applyRecords records).Matches appHash committed := by
  cases write with
  | record height hash =>
    refine ⟨recordsMatch.boundary_le, fun other found recorded => ?_⟩
    by_cases same : other = height
    · subst same
      rw [hashes_record_self] at recorded
      exact (Option.some.inj recorded).symm.trans writeMatches
    · rw [hashes_record_of_ne _ _ same] at recorded
      exact recordsMatch.hashes other found recorded
  | prune boundary =>
    refine ⟨writeMatches, fun height hash recorded => ?_⟩
    obtain ⟨_, recorded⟩ := ite_none_left_eq_some.mp recorded
    exact recordsMatch.hashes height hash recorded

/-- The application has the hash that the loop comes to record, and it does not ask to let go of
what it has not committed. -/
theorem Phase.Matches.pending (phaseMatches : phase.Matches appHash committed)
    (pending : phase.pending = some write) : write.Matches appHash committed := by
  cases phase with
  | recommitting | recording =>
    cases pending
    exact phaseMatches.2.2
  | pruning height retainHeight =>
    obtain ⟨boundary, cast, same⟩ := map_eq_some_iff.mp pending
    cases same
    obtain ⟨same, _, retained⟩ := phaseMatches
    exact same ▸ Int.ofNat_le.mp (eq_of_safeCast cast ▸ retained)
  | _ => cases pending

theorem Undisturbed.effect (undisturbed : Undisturbed config appHash node records)
    (pending : node.phase.pending = some write)
    (effect : Effect config.sha256 node.db records write result left) :
    left.Matches appHash node.committed := by
  cases effect with
  | unchanged => exact undisturbed.records
  | written => exact undisturbed.records.written (undisturbed.phase.pending pending)

theorem matches_firstPhase {last : Int} {lastHash : Bytes} (ready : Bool)
    (isInt64 : IsInt64 last) (reported : last = committed)
    (reportedHash : committed = 0 ∨ lastHash = appHash committed) :
    (firstPhase config last lastHash ready).Matches appHash committed := by
  rw [firstPhase]
  split
  · have cast : safeCast last = some committed := by
      rw [safeCast, if_pos (by omega), reported, Int.toNat_natCast]
    rw [cast]
    split
    next missing => cases missing
    next zero =>
      have zero : committed = 0 := Option.some.inj zero
      cases safeCast config.initialHeight with
      | none => trivial
      | some next => exact zero ▸ Nat.zero_le next
    next height positive same =>
      cases same
      have bound := isInt64.2
      exact ⟨rfl, by omega, reportedHash.resolve_left positive⟩
  · trivial

theorem matches_commitCall (phaseMatches : phase.Matches appHash committed)
    (call : phase.commitCall = some (height, hash, resume)) :
    committed ≤ height ∧ hash = appHash height ∧ resume.Matches appHash committed := by
  rcases commitCall_running call with ⟨rfl, rfl⟩ | ⟨rfl, rfl⟩
  · obtain ⟨same, bound, hashed⟩ := phaseMatches
    exact ⟨same.ge, hashed, same, bound⟩
  · obtain ⟨le, bound, hashed⟩ := phaseMatches
    exact ⟨le, hashed, le, bound⟩

/-- The vault has no reason to refuse the hash of the application. -/
theorem not_refusal {error : VaultError}
    (recordsMatch : records.Matches appHash committed) (readOk : conditions.readOk = true)
    (writeOk : conditions.writeOk = true) (le : committed ≤ height) (same : hash = appHash height)
    (length : (appHash height).length = blockHashSize)
    (refusal : Refusal conditions records height hash error) : error = .cancelled := by
  cases error with
  | cancelled => rfl
  | belowPruneBoundary =>
    exact absurd refusal (not_lt.mpr (recordsMatch.boundary_le.trans le))
  | invalidHashLength => exact absurd (same ▸ length) refusal
  | hashMismatch =>
    obtain ⟨recorded, found, differs⟩ := refusal
    exact absurd ((recordsMatch.hashes height recorded found).trans same.symm) differs
  | readFailed => exact absurd (readOk.symm.trans refusal) (by decide)
  | writeFailed => exact absurd (writeOk.symm.trans refusal) (by decide)
  | corruption => exact refusal.elim

theorem matches_afterVaultCommit (recordsMatch : records.Matches appHash committed)
    (length : ∀ height, (appHash height).length = blockHashSize)
    (readOk : conditions.readOk = true) (writeOk : conditions.writeOk = true)
    (phaseMatches : phase.Matches appHash committed)
    (call : phase.commitCall = some (height, hash, resume))
    (answered : Answered conditions records left height hash answer) :
    (afterVaultCommit resume answer).Matches appHash committed := by
  obtain ⟨le, same, resumeMatches⟩ := matches_commitCall phaseMatches call
  cases answer with
  | ok => exact resumeMatches
  | error =>
    have cancelled := not_refusal recordsMatch readOk writeOk le same (length height) answered
    subst cancelled
    trivial

theorem matches_pushCall (phaseMatches : phase.Matches appHash committed)
    (call : phase.pushCall = some (height, hash, resume)) : resume.Matches appHash committed := by
  rcases pushCall_running call with ⟨rfl, rfl⟩ | ⟨_, rfl, rfl⟩
  · obtain ⟨same, bound⟩ := phaseMatches
    change committed ≤ (height + 1) % 2 ^ 64
    omega
  · exact phaseMatches

theorem Records.Matches.mono {later : Nat} (recordsMatch : records.Matches appHash committed)
    (le : committed ≤ later) : records.Matches appHash later :=
  ⟨recordsMatch.boundary_le.trans le, recordsMatch.hashes⟩

theorem Undisturbed.step (undisturbed : Undisturbed config appHash node records)
    (length : ∀ height, (appHash height).length = blockHashSize)
    (deterministic : Deterministic appHash node event)
    (acts : Acts config node records event after left) :
    Undisturbed config appHash after left := by
  have stored := undisturbed.stored.step acts
  have recordsMatch := undisturbed.records
  have phaseMatches := undisturbed.phase
  cases acts with
  | @opened _ ready _ _ _ isInt64 =>
    exact ⟨stored, recordsMatch,
      matches_firstPhase ready isInt64 deterministic.2.1 deterministic.2.2⟩
  | vaultCommit call effect answered =>
    exact ⟨stored, undisturbed.effect (pending_of_commitCall call) effect,
      matches_afterVaultCommit recordsMatch length deterministic.1 deterministic.2 phaseMatches call
        answered⟩
  | @finalize height appHash executing =>
    refine ⟨stored, recordsMatch, ?_⟩
    rw [executing] at phaseMatches
    cases appHash with
    | none => trivial
    | some => exact ⟨phaseMatches, deterministic height executing⟩
  | appCommit committing =>
    rw [committing] at phaseMatches
    exact ⟨stored, recordsMatch.mono phaseMatches.1, rfl, phaseMatches.2,
      deterministic _ _ committing⟩
  | @failedAppCommit _ _ persisted committing =>
    rw [committing] at phaseMatches
    cases persisted with
    | true => exact ⟨stored, recordsMatch.mono phaseMatches.1, trivial⟩
    | false => exact ⟨stored, recordsMatch, trivial⟩
  | @push ok _ _ _ call =>
    refine ⟨stored, recordsMatch, ?_⟩
    cases ok with
    | true => exact matches_pushCall phaseMatches call
    | false => trivial
  | @prune _ height _ _ _ _ pruning cast effect =>
    refine ⟨stored, undisturbed.effect (pending_of_cast pruning cast) effect, ?_⟩
    rw [pruning] at phaseMatches
    obtain ⟨same, bound, _⟩ := phaseMatches
    change node.committed ≤ (height + 1) % 2 ^ 64
    omega
  | failedOpen | failedPrune | crash => exact ⟨stored, recordsMatch, trivial⟩
  | crashInWrite pending effect => exact ⟨stored, undisturbed.effect pending effect, trivial⟩

/-! ### The guarantee -/

theorem stored_fresh (config : Config) : Stored config .fresh .empty := ⟨.empty, nofun, trivial⟩

/-- What holds in every state of a node. -/
def IsGuarded (config : Config) (node : Node) : Prop := ∃ records, Guarded config node records

theorem isGuarded_of_reaches {admits : Node → Event → Prop}
    (reached : Reaches (step config) admits .fresh node) : IsGuarded config node := by
  refine reached.invariant ?_ fun before event after held _ stepped => ?_
  · exact ⟨.empty, stored_fresh config, nofun, trivial, nofun⟩
  · obtain ⟨records, guarded⟩ := held
    obtain ⟨left, acts⟩ := guarded.stored.acts_of_step stepped
    exact ⟨left, guarded.step acts⟩

/-- What holds in every state of a node with a deterministic application. -/
def IsUndisturbed (config : Config) (appHash : Nat → Bytes) (node : Node) : Prop :=
  ∃ records, Undisturbed config appHash node records

theorem isUndisturbed_of_reaches (length : ∀ height, (appHash height).length = blockHashSize)
    (reached : Reaches (step config) (Deterministic appHash) .fresh node) :
    IsUndisturbed config appHash node := by
  refine reached.invariant ?_ fun before event after held deterministic stepped => ?_
  · exact ⟨.empty, stored_fresh config, ⟨le_rfl, nofun⟩, trivial⟩
  · obtain ⟨records, undisturbed⟩ := held
    obtain ⟨left, acts⟩ := undisturbed.stored.acts_of_step stepped
    exact ⟨left, undisturbed.step length deterministic acts⟩

/-- The hash that the vault has for a height. -/
def Node.recordedHash (config : Config) (node : Node) (height : Nat) : Option Bytes :=
  (node.db (hashKey height)).bind (decodeHashValue config.sha256 height)

theorem Stored.recordedHash (stored : Stored config node records) (fits : height < 2 ^ 64) :
    node.recordedHash config height = records.hashes height := by
  rw [Node.recordedHash, stored.refines.rows height fits]
  cases records.hashes height with
  | none => rfl
  | some hash => exact decodeHashValue_encodeHashValue config.sha256 height hash

/-- A node never pushes two hashes for one height and only commits what the vault has recorded; and
with a deterministic application the vault never halts it. -/
theorem vault_prevents_equivocation (config : Config) :
    (∀ node, Reaches (step config) (fun _ _ => True) .fresh node →
      (∀ height first second, (height, first) ∈ node.pushed → (height, second) ∈ node.pushed →
        first = second) ∧
      ∀ height hash, node.phase = .committing height hash →
        node.recordedHash config height = some hash) ∧
    ∀ appHash : Nat → Bytes, (∀ height, (appHash height).length = blockHashSize) →
      ∀ node, Reaches (step config) (Deterministic appHash) .fresh node →
        ∀ error, node.phase ≠ .halted error := by
  refine ⟨fun node reached => ?_, fun appHash length node reached error halted => ?_⟩
  · obtain ⟨records, guarded⟩ := isGuarded_of_reaches reached
    refine ⟨fun height first second firstMember secondMember =>
      guarded.agree _ firstMember _ secondMember rfl, fun height hash committing => ?_⟩
    have fits := guarded.stored.phaseFits
    have recorded := guarded.recorded
    rw [committing] at fits recorded
    rw [guarded.stored.recordedHash fits]
    exact recorded.2
  · obtain ⟨records, undisturbed⟩ := isUndisturbed_of_reaches length reached
    have phaseMatches := undisturbed.phase
    rw [halted] at phaseMatches
    exact phaseMatches

/-- A chain that starts at height one, with a checksum that is easy to compute. -/
def sampleConfig : Config where
  sha256 := { sum := fun _ => List.replicate 32 0, length_sum := fun _ => rfl }
  cacheSize := 2
  initialHeight := 1
  isInt64 := by decide

def sampleHash (digit : UInt8) : Bytes := List.replicate 32 digit

/-- Two blocks, a crash after which the second `Prune` is found on disk, and a restart that pushes
a hash a second time, are covered by both parts. -/
theorem vault_prevents_equivocation_short :
    ∃ node : Node,
      node.pushed = [(2, sampleHash 1), (2, sampleHash 1), (1, sampleHash 1)] ∧
      (∀ height first second, (height, first) ∈ node.pushed → (height, second) ∈ node.pushed →
        first = second) ∧
      ∀ error, node.phase ≠ .halted error := by
  have fresh : Reaches (step sampleConfig) (Deterministic fun _ => sampleHash 1) .fresh .fresh :=
    .refl _
  have opened := fresh.next (.start true 0 [] true) ⟨rfl, rfl, .inl rfl⟩ rfl
  have first := ((opened.next (.finalize (some (sampleHash 1)))
    (by rintro _ ⟨⟩; exact ⟨by decide, rfl⟩) rfl).next (.vaultCommit allOk) ⟨rfl, rfl⟩ rfl).next
      (.appCommit (.succeeded 1)) (by rintro _ _ ⟨⟩; decide) rfl
  have pruned := (first.next (.push true) trivial rfl).next (.prune true allOk) ⟨rfl, rfl⟩ rfl
  have second := ((pruned.next (.finalize (some (sampleHash 1)))
    (by rintro _ ⟨⟩; exact ⟨by decide, rfl⟩) rfl).next (.vaultCommit allOk) ⟨rfl, rfl⟩ rfl).next
      (.appCommit (.succeeded 2)) (by rintro _ _ ⟨⟩; decide) rfl
  have crashed := (second.next (.push true) trivial rfl).next (.crash true) trivial rfl
  have reached := ((crashed.next (.start true 2 (sampleHash 1) true) ⟨rfl, rfl, .inr rfl⟩ rfl).next
    (.vaultCommit allOk) ⟨rfl, rfl⟩ rfl).next (.push true) trivial rfl
  refine ⟨_, ?_, ((vault_prevents_equivocation sampleConfig).1 _
    (reached.mono fun _ _ _ => trivial)).1,
    (vault_prevents_equivocation sampleConfig).2 _ (fun _ => rfl) _ reached⟩
  rfl

end SeiChain.HashVault
