/-
This file models the execution loop of a node with the hash vault over the whole life
of its data directory. Between two calls the process may die, and so it may inside the
write of a call, which is then found on disk or not; the application is arbitrary, so
what it answers is part of the events. After a start the loop commits the application's last hash to
the vault again and pushes it, and then executes one block after the other.
-/

import SeiChain.HashVault.Vault
import SeiChain.Library.Transition

namespace SeiChain.HashVault

open Library List Option

/-! ### The state of a node -/

/-- A conversion from a signed to an unsigned number of 64 bits. -/
def safeCast (value : Int) : Option Nat := if 0 ≤ value then some value.toNat else none

def IsInt64 (value : Int) : Prop := -2 ^ 63 ≤ value ∧ value < 2 ^ 63

instance (value : Int) : Decidable (IsInt64 value) := inferInstanceAs (Decidable (_ ∧ _))

structure Config where
  sha256 : Checksum
  cacheSize : Nat
  initialHeight : Int
  isInt64 : IsInt64 initialHeight

/-- Where the loop is. `halted` is the panic of `commitAppHashToVault`; after any other end of the
loop the node is `down`. -/
inductive Phase where
  | down
  | halted (error : VaultError)
  | recommitting (last : Nat) (hash : Bytes)
  | repushing (last : Nat) (hash : Bytes)
  | executing (height : Nat)
  | recording (height : Nat) (hash : Bytes)
  | committing (height : Nat) (hash : Bytes)
  | pushing (height : Nat) (hash : Bytes) (retainHeight : Int)
  | pruning (height : Nat) (retainHeight : Int)
  deriving DecidableEq

/-- A node with its application's committed height and, latest first, all that it ever passed to
`PushAppHash`. -/
structure Node where
  phase : Phase
  vault : Vault
  db : Database
  committed : Nat
  pushed : List (Nat × Bytes)

/-- A node with an empty data directory. -/
def Node.fresh : Node where
  phase := .down
  vault := { pruneBoundary := 0, cache := [] }
  db := fun _ => none
  committed := 0
  pushed := []

/-! ### Steps -/

/-- The end of `app.Commit`. A commit that fails, or in which the process dies, may have reached
the application's disk. -/
inductive CommitOutcome where
  | succeeded (retainHeight : Int)
  | failed (persisted : Bool)
  deriving DecidableEq, Repr

def allOk : Conditions := { cancelled := false, readOk := true, writeOk := true }

/-- In `start`, `last` and `lastHash` are what the application reports, and `ready` is whether the
calls to the application and the data layer that follow succeed. In `finalize` there is no hash if
the block cannot be had or executed. A `crash` may be one inside the write of the call that comes
next, also one that Pebble brings about because the write fails; `written` is then whether the
write is found on disk. -/
inductive Event where
  | start (readOk : Bool) (last : Int) (lastHash : Bytes) (ready : Bool)
  | vaultCommit (conditions : Conditions)
  | finalize (appHash : Option Bytes)
  | appCommit (outcome : CommitOutcome)
  | push (ok : Bool)
  | prune (dataOk : Bool) (conditions : Conditions)
  | crash (written : Bool)

/-- The call of `CommitToHash` that the loop is about to make, and where it goes from there. -/
def Phase.commitCall : Phase → Option (Nat × Bytes × Phase)
  | recommitting last hash => some (last, hash, repushing last hash)
  | recording height hash => some (height, hash, committing height hash)
  | _ => none

/-- The call of `PushAppHash` that the loop is about to make, and where it goes from there. -/
def Phase.pushCall : Phase → Option (Nat × Bytes × Phase)
  | repushing last hash => some (last, hash, executing ((last + 1) % 2 ^ 64))
  | pushing height hash retainHeight => some (height, hash, pruning height retainHeight)
  | _ => none

/-- The call of `Prune` that the loop is about to make. -/
def Phase.pruneCall : Phase → Option (Nat × Nat)
  | pruning height retainHeight => (safeCast retainHeight).map fun boundary => (height, boundary)
  | _ => none

/-- The write that the call of the vault may make to which the loop has come. -/
def Phase.pending : Phase → Option Write
  | recommitting height hash | recording height hash => some (.record height hash)
  | pruning _ retainHeight => (safeCast retainHeight).map .prune
  | _ => none

def Phase.isRunning : Phase → Bool
  | down | halted _ => false
  | _ => true

variable (config : Config)

/-- The first phase after the vault has been opened. -/
def firstPhase (last : Int) (lastHash : Bytes) (ready : Bool) : Phase :=
  if ready then
    match safeCast last with
    | none => .down
    | some 0 => ((safeCast config.initialHeight).map Phase.executing).getD .down
    | some last => .recommitting last lastHash
  else .down

/-- How `commitAppHashToVault` ends. -/
def afterVaultCommit (resume : Phase) : Except VaultError Unit → Phase
  | .ok () => resume
  | .error .cancelled => .down
  | .error error => .halted error

variable (node : Node)

namespace Node

def start (readOk : Bool) (last : Int) (lastHash : Bytes) (ready : Bool) : Node :=
  match loadPruneBoundary node.db readOk with
  | .error _ => { node with phase := .down }
  | .ok pruneBoundary =>
    { node with
      phase := firstPhase config last lastHash ready
      vault := { pruneBoundary, cache := [] } }

def vaultCommit (conditions : Conditions) (height : Nat) (hash : Bytes) (resume : Phase) : Node :=
  let (result, vault, db) := commitToHash config.sha256 node.db config.cacheSize conditions
    node.vault height hash
  { node with phase := afterVaultCommit resume result, vault, db }

/-- An error of `Prune` is logged, and the loop goes on. -/
def prune (conditions : Conditions) (height boundary : Nat) : Node :=
  let (_, vault, db) := HashVault.prune config.sha256 node.db conditions node.vault boundary
  { node with phase := .executing ((height + 1) % 2 ^ 64), vault, db }

/-- The node after the call of the vault that it is about to make, if there is one. -/
def nextVaultCall (conditions : Conditions) : Node :=
  match node.phase.commitCall, node.phase.pruneCall with
  | some (height, hash, resume), _ => node.vaultCommit config conditions height hash resume
  | _, some (height, boundary) => node.prune config conditions height boundary
  | _, _ => node

def appCommit (height : Nat) (hash : Bytes) : CommitOutcome → Option Node
  | .succeeded retainHeight =>
    if IsInt64 retainHeight then
      some { node with phase := .pushing height hash retainHeight, committed := height }
    else none
  | .failed persisted =>
    some { node with phase := .down, committed := if persisted then height else node.committed }

/-- One step; an event that cannot happen in the phase has no successor. -/
def step : Event → Option Node
  | .start readOk last lastHash ready =>
    if ¬ node.phase.isRunning ∧ IsInt64 last then
      some (node.start config readOk last lastHash ready)
    else none
  | .vaultCommit conditions =>
    if node.phase.commitCall.isSome then some (node.nextVaultCall config conditions) else none
  | .finalize appHash =>
    match node.phase with
    | .executing height =>
      some { node with phase := (appHash.map (Phase.recording height)).getD .down }
    | _ => none
  | .appCommit outcome =>
    match node.phase with
    | .committing height hash => node.appCommit height hash outcome
    | _ => none
  | .push ok =>
    node.phase.pushCall.map fun (height, hash, resume) =>
      { node with phase := if ok then resume else .down, pushed := (height, hash) :: node.pushed }
  | .prune dataOk conditions =>
    match node.phase with
    | .pruning _ _ =>
      if node.phase.pruneCall.isSome ∧ dataOk then some (node.nextVaultCall config conditions)
      else some { node with phase := .down }
    | _ => none
  | .crash written =>
    some { node with
      phase := .down
      db := if written then (node.nextVaultCall config allOk).db else node.db }

end Node

/-! ### What a step can do -/

/-- The steps of a node, given the records that its database stands for, with the records that
they leave. -/
inductive Acts (config : Config) (node : Node) (records : Records) :
    Event → Node → Records → Prop
  | failedOpen {readOk ready : Bool} {last : Int} {lastHash : Bytes} :
      Acts config node records (.start readOk last lastHash ready) { node with phase := .down }
        records
  | opened {readOk ready : Bool} {last : Int} {lastHash : Bytes} {pruneBoundary : Nat}
      (isInt64 : IsInt64 last) (loaded : loadPruneBoundary node.db readOk = .ok pruneBoundary) :
      Acts config node records (.start readOk last lastHash ready)
        { node with
          phase := firstPhase config last lastHash ready
          vault := { pruneBoundary, cache := [] } } records
  | vaultCommit {conditions : Conditions} {height : Nat} {hash : Bytes} {resume : Phase}
      {answer : Except VaultError Unit} {result : Vault × Database} {left : Records}
      (call : node.phase.commitCall = some (height, hash, resume))
      (effect : Effect config.sha256 node.db records (.record height hash) result left)
      (answered : Answered conditions records left height hash answer) :
      Acts config node records (.vaultCommit conditions)
        { node with phase := afterVaultCommit resume answer, vault := result.1, db := result.2 }
        left
  | finalize {height : Nat} {appHash : Option Bytes} (executing : node.phase = .executing height) :
      Acts config node records (.finalize appHash)
        { node with phase := (appHash.map (Phase.recording height)).getD .down } records
  | appCommit {height : Nat} {hash : Bytes} {retainHeight : Int}
      (committing : node.phase = .committing height hash) (isInt64 : IsInt64 retainHeight) :
      Acts config node records (.appCommit (.succeeded retainHeight))
        { node with phase := .pushing height hash retainHeight, committed := height } records
  | failedAppCommit {height : Nat} {hash : Bytes} {persisted : Bool}
      (committing : node.phase = .committing height hash) :
      Acts config node records (.appCommit (.failed persisted))
        { node with phase := .down, committed := if persisted then height else node.committed }
        records
  | push {ok : Bool} {height : Nat} {hash : Bytes} {resume : Phase}
      (call : node.phase.pushCall = some (height, hash, resume)) :
      Acts config node records (.push ok)
        { node with phase := if ok then resume else .down, pushed := (height, hash) :: node.pushed }
        records
  | prune {conditions : Conditions} {height boundary : Nat} {retainHeight : Int}
      {result : Vault × Database} {left : Records}
      (pruning : node.phase = .pruning height retainHeight)
      (cast : safeCast retainHeight = some boundary)
      (effect : Effect config.sha256 node.db records (.prune boundary) result left) :
      Acts config node records (.prune true conditions)
        { node with phase := .executing ((height + 1) % 2 ^ 64), vault := result.1, db := result.2 }
        left
  | failedPrune {dataOk : Bool} {conditions : Conditions} :
      Acts config node records (.prune dataOk conditions) { node with phase := .down } records
  | crash {written : Bool} :
      Acts config node records (.crash written) { node with phase := .down } records
  | crashInWrite {write : Write} {result : Vault × Database} {left : Records}
      (pending : node.phase.pending = some write)
      (effect : Effect config.sha256 node.db records write result left) :
      Acts config node records (.crash true) { node with phase := .down, db := result.2 } left

/-- The heights of a running loop are numbers of 64 bits. -/
def Phase.Fits : Phase → Prop
  | down | halted _ => True
  | executing height => height < 2 ^ 64
  | recommitting height _ | repushing height _ | recording height _ | committing height _ =>
    height < 2 ^ 64
  | pushing height _ retainHeight => height < 2 ^ 64 ∧ retainHeight < 2 ^ 63
  | pruning _ retainHeight => retainHeight < 2 ^ 63

/-- The database stands for the records, and the vault of a running node has read them. -/
structure Stored (records : Records) : Prop where
  refines : Refines config.sha256 node.db records
  agrees : node.phase.isRunning = true → Agrees node.vault records
  phaseFits : node.phase.Fits

variable {config : Config} {node after : Node} {event : Event} {records left : Records}

variable {value : Int} {number : Nat}

theorem eq_of_safeCast (cast : safeCast value = some number) : value = number := by
  rw [safeCast, ite_none_right_eq_some] at cast
  obtain ⟨_, same⟩ := cast
  cases same
  omega

theorem lt_of_safeCast (bound : value < 2 ^ 63) (cast : safeCast value = some number) :
    number < 2 ^ 64 := by
  have same := eq_of_safeCast cast
  omega

variable {phase resume : Phase} {height boundary : Nat} {hash : Bytes} {retainHeight : Int}
  {write : Write}

theorem commitCall_running (call : phase.commitCall = some (height, hash, resume)) :
    phase = .recommitting height hash ∧ resume = .repushing height hash ∨
      phase = .recording height hash ∧ resume = .committing height hash := by
  cases phase with
  | recommitting last known =>
    cases call
    exact .inl ⟨rfl, rfl⟩
  | recording height known =>
    cases call
    exact .inr ⟨rfl, rfl⟩
  | _ => cases call

theorem pushCall_running (call : phase.pushCall = some (height, hash, resume)) :
    (phase = .repushing height hash ∧ resume = .executing ((height + 1) % 2 ^ 64)) ∨
      ∃ retainHeight, phase = .pushing height hash retainHeight ∧
        resume = .pruning height retainHeight := by
  cases phase with
  | repushing last known =>
    cases call
    exact .inl ⟨rfl, rfl⟩
  | pushing height known retainHeight =>
    cases call
    exact .inr ⟨retainHeight, rfl, rfl⟩
  | _ => cases call

theorem pruneCall_running (call : phase.pruneCall = some (height, boundary)) :
    ∃ retainHeight, phase = .pruning height retainHeight ∧
      safeCast retainHeight = some boundary := by
  cases phase with
  | pruning known retainHeight =>
    obtain ⟨cast, castTo, same⟩ := map_eq_some_iff.mp call
    cases same
    exact ⟨retainHeight, rfl, castTo⟩
  | _ => cases call

theorem pending_of_commitCall (call : phase.commitCall = some (height, hash, resume)) :
    phase.pending = some (.record height hash) := by
  rcases commitCall_running call with ⟨rfl, _⟩ | ⟨rfl, _⟩
  all_goals rfl

theorem pending_of_cast (pruning : phase = .pruning height retainHeight)
    (cast : safeCast retainHeight = some boundary) : phase.pending = some (.prune boundary) := by
  rw [pruning, Phase.pending, cast]
  rfl

/-- The loop comes to the write of a hash or of a boundary that fits. -/
theorem Phase.Fits.pending (fits : phase.Fits) (pending : phase.pending = some write) :
    write.Fits ∧ phase.isRunning = true := by
  cases phase with
  | recommitting | recording =>
    cases pending
    exact ⟨fits, rfl⟩
  | pruning height retainHeight =>
    obtain ⟨boundary, cast, same⟩ := map_eq_some_iff.mp pending
    cases same
    exact ⟨lt_of_safeCast fits cast, rfl⟩
  | _ => cases pending

section

variable (stored : Stored config node records)

include stored

theorem Stored.commitCall_fits (call : node.phase.commitCall = some (height, hash, resume)) :
    resume.Fits := by
  have fits := stored.phaseFits
  rcases commitCall_running call with ⟨phase, rfl⟩ | ⟨phase, rfl⟩ <;> rw [phase] at fits
  all_goals exact fits

theorem Stored.pushCall_fits (call : node.phase.pushCall = some (height, hash, resume)) :
    resume.Fits ∧ node.phase.isRunning = true := by
  have fits := stored.phaseFits
  rcases pushCall_running call with ⟨phase, rfl⟩ | ⟨retainHeight, phase, rfl⟩ <;>
    rw [phase] at fits ⊢
  · exact ⟨Nat.mod_lt _ (by decide), rfl⟩
  · exact ⟨fits.2, rfl⟩

/-- What the call of the vault does to which the loop has come. -/
theorem Stored.commitCall (conditions : Conditions)
    (call : node.phase.commitCall = some (height, hash, resume)) :
    let result := commitToHash config.sha256 node.db config.cacheSize conditions node.vault height
      hash
    ∃ left, Effect config.sha256 node.db records (.record height hash) result.2 left ∧
      Answered conditions records left height hash result.1 := by
  obtain ⟨fits, running⟩ := stored.phaseFits.pending (pending_of_commitCall call)
  exact commitToHash_spec (stored.agrees running) _ stored.refines fits

theorem Stored.pruneCall (conditions : Conditions) (boundary : Nat)
    (pruning : node.phase = .pruning height retainHeight) :
    ∃ left, Effect config.sha256 node.db records (.prune boundary)
      (prune config.sha256 node.db conditions node.vault boundary).2 left :=
  prune_spec (stored.agrees (by rw [pruning]; rfl)) boundary

theorem Stored.acts_of_crash {written : Bool}
    (stepped : node.step config (.crash written) = some after) :
    ∃ left, Acts config node records (.crash written) after left := by
  cases stepped
  cases written with
  | false => exact ⟨_, .crash⟩
  | true =>
    simp only [if_true, Node.nextVaultCall]
    cases call : node.phase.commitCall with
    | some entry =>
      obtain ⟨left, effect, _⟩ := stored.commitCall allOk call
      exact ⟨left, .crashInWrite (pending_of_commitCall call) effect⟩
    | none =>
      cases pruneCall : node.phase.pruneCall with
      | none => exact ⟨_, .crash⟩
      | some entry =>
        obtain ⟨retainHeight, pruning, cast⟩ := pruneCall_running pruneCall
        obtain ⟨left, effect⟩ := stored.pruneCall allOk entry.2 pruning
        exact ⟨left, .crashInWrite (pending_of_cast pruning cast) effect⟩

theorem Stored.acts_of_step (stepped : node.step config event = some after) :
    ∃ left, Acts config node records event after left := by
  cases event with
  | start readOk =>
    rw [Node.step, ite_none_right_eq_some] at stepped
    obtain ⟨⟨_, isInt64⟩, same⟩ := stepped
    cases same
    rw [Node.start]
    cases loaded : loadPruneBoundary node.db readOk with
    | error error => exact ⟨_, .failedOpen⟩
    | ok => exact ⟨_, .opened isInt64 loaded⟩
  | vaultCommit conditions =>
    rw [Node.step, ite_none_right_eq_some, isSome_iff_exists] at stepped
    obtain ⟨⟨⟨height, hash, resume⟩, call⟩, same⟩ := stepped
    cases same
    obtain ⟨left, effect, answered⟩ := stored.commitCall conditions call
    rw [Node.nextVaultCall, call]
    exact ⟨left, .vaultCommit call effect answered⟩
  | finalize =>
    rw [Node.step] at stepped
    split at stepped
    next height executing =>
      cases stepped
      exact ⟨_, .finalize executing⟩
    next => cases stepped
  | appCommit outcome =>
    rw [Node.step] at stepped
    split at stepped
    next height hash committing =>
      cases outcome with
      | succeeded retainHeight =>
        rw [Node.appCommit, ite_none_right_eq_some] at stepped
        obtain ⟨isInt64, same⟩ := stepped
        cases same
        exact ⟨_, .appCommit committing isInt64⟩
      | failed =>
        cases stepped
        exact ⟨_, .failedAppCommit committing⟩
    next => cases stepped
  | push ok =>
    obtain ⟨⟨height, hash, resume⟩, call, same⟩ := map_eq_some_iff.mp stepped
    cases same
    exact ⟨_, .push call⟩
  | prune dataOk conditions =>
    rw [Node.step] at stepped
    split at stepped
    next known retained pruning =>
      split_ifs at stepped with called
      · obtain ⟨called, rfl⟩ := called
        obtain ⟨⟨height, boundary⟩, call⟩ := isSome_iff_exists.mp called
        obtain ⟨retainHeight, pruning, cast⟩ := pruneCall_running call
        obtain ⟨left, effect⟩ := stored.pruneCall conditions boundary pruning
        cases stepped
        have idle : node.phase.commitCall = none := by rw [pruning]; rfl
        rw [Node.nextVaultCall, idle, call]
        exact ⟨left, .prune pruning cast effect⟩
      · cases stepped
        exact ⟨_, .failedPrune⟩
    next => cases stepped
  | crash => exact stored.acts_of_crash stepped

end

theorem firstPhase_fits {last : Int} (isInt64 : IsInt64 last) (lastHash : Bytes) (ready : Bool) :
    (firstPhase config last lastHash ready).Fits := by
  rw [firstPhase]
  split
  · split
    · trivial
    next =>
      cases cast : safeCast config.initialHeight with
      | none => trivial
      | some =>
        exact lt_of_safeCast config.isInt64.2 cast
    next last _ cast => exact lt_of_safeCast isInt64.2 cast
  · trivial

theorem afterVaultCommit_fits (fits : resume.Fits)
    (result : Except VaultError Unit) : (afterVaultCommit resume result).Fits := by
  rw [afterVaultCommit.eq_def]
  split
  · exact fits
  · trivial
  · trivial

/-- After the write the database stands for the records that are left, and so does the memory. -/
theorem Stored.effect {result : Vault × Database} (stored : Stored config node records)
    (pending : node.phase.pending = some write)
    (effect : Effect config.sha256 node.db records write result left) :
    Refines config.sha256 result.2 left ∧ Agrees result.1 left :=
  effect.refines stored.refines (stored.phaseFits.pending pending).1

theorem Stored.step (stored : Stored config node records)
    (acts : Acts config node records event after left) : Stored config after left := by
  have refines := stored.refines
  cases acts with
  | opened isInt64 loaded =>
    exact ⟨refines, fun _ => agrees_of_loadPruneBoundary refines loaded,
      firstPhase_fits isInt64 _ _⟩
  | vaultCommit call effect =>
    obtain ⟨refinesAfter, agrees⟩ := stored.effect (pending_of_commitCall call) effect
    exact ⟨refinesAfter, fun _ => agrees, afterVaultCommit_fits (stored.commitCall_fits call) _⟩
  | @finalize height appHash executing =>
    have fits := stored.phaseFits
    rw [executing] at fits
    refine ⟨refines, fun _ => stored.agrees (by rw [executing]; rfl), ?_⟩
    cases appHash with
    | none => trivial
    | some => exact fits
  | appCommit committing isInt64 =>
    have fits := stored.phaseFits
    rw [committing] at fits
    exact ⟨refines, fun _ => stored.agrees (by rw [committing]; rfl), fits, isInt64.2⟩
  | @push ok _ _ _ call =>
    obtain ⟨resumeFits, running⟩ := stored.pushCall_fits call
    refine ⟨refines, fun _ => stored.agrees running, ?_⟩
    cases ok with
    | true => exact resumeFits
    | false => trivial
  | prune pruning cast effect =>
    obtain ⟨refinesAfter, agrees⟩ := stored.effect (pending_of_cast pruning cast) effect
    exact ⟨refinesAfter, fun _ => agrees, Nat.mod_lt _ (by decide)⟩
  | failedOpen | failedAppCommit | failedPrune | crash => exact ⟨refines, nofun, trivial⟩
  | crashInWrite pending effect =>
    exact ⟨(stored.effect pending effect).1, nofun, trivial⟩

end SeiChain.HashVault
