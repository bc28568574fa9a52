/-
This file models how a node handles the proposals of one height and the decided
block. `ProcessProposal` validates a proposal and lets a goroutine process the
first accepted one ahead of the decision, on a branch of the store that all
proposals of the height share. `FinalizeBlock` waits for that goroutine and takes
its branch over if it processed the decided block and nothing aborted it; else it
processes the block on a branch of its own. The calls are cut where a lock is taken
or a channel is used, and the goroutine takes one store operation at a time, so
that every interleaving is a run of the machine.
-/

import SeiChain.App.BlockGas
import SeiChain.Library.StoreProgram
import SeiChain.Library.Transition

namespace SeiChain.App

open Library Option

/-! ### Contexts and requests -/

/-- The content of all stores of the application. -/
abbrev Store := Bytes → Option Bytes

structure ConsensusParams (Other : Type) where
  block : Option BlockParams
  other : Other
  deriving DecidableEq, Repr

/-- The part of an `sdk.Context` that the calls set; the store is kept beside it. -/
structure Context (Header Other : Type) where
  header : Header
  headerHash : Bytes
  consParams : ConsensusParams Other
  deriving DecidableEq

/-- The part of the proposal and finalize requests that is processed. `evidence` stands for the
misbehaving validators and the last commit. -/
structure BlockRequest (Header Evidence : Type) where
  hash : Bytes
  header : Header
  txs : List Bytes
  evidence : Evidence
  deriving DecidableEq

/-- A branch of the multistore with the context that carries it. -/
structure Branch (Header Other : Type) where
  ctx : Context Header Other
  store : Store

/-- What the application is built with. `processBlock` is the program of `ProcessBlock` over the
store; `noResult` are the zero values of its results. -/
structure Application (Header Evidence Other Result : Type) where
  chainID : String
  chainIDOf : Header → String
  height : Header → Int
  consensusParams : Store → ConsensusParams Other
  txDecoder : Bytes → Option Tx
  keepers : Keepers (Branch Header Other)
  upgradePlan : Store → Option Int
  processBlock : Context Header Other → BlockRequest Header Evidence →
    StoreProgram Bytes Bytes String Result
  noResult : Result
  workingHash : Store → Bytes

structure FinalizeResponse (Other Result : Type) where
  result : Result
  consensusParamUpdates : ConsensusParams Other
  appHash : Bytes
  deriving DecidableEq

variable {Header Evidence Other Result : Type}

/-- `DecodeTxBytesConcurrently`: all transactions, or nothing if one does not decode. -/
def Application.decodeTxs (app : Application Header Evidence Other Result) :
    List Bytes → Option (List (Option Tx))
  | [] => some []
  | tx :: rest =>
    match app.txDecoder tx, app.decodeTxs rest with
    | some tx, some rest => some (some tx :: rest)
    | _, _ => none

variable (app : Application Header Evidence Other Result)

/-- The checks of `ProcessProposalHandler` on the clean context. -/
def Application.accepts (clean : Branch Header Other) (request : BlockRequest Header Evidence) :
    Bool :=
  match app.decodeTxs request.txs with
  | none => false
  | some txs => checkTotalBlockGas app.keepers clean clean.ctx.consParams.block txs 0 0

/-- There is an upgrade plan that is due, as of `ShouldExecute`. -/
def Application.upgradeDue (header : Header) (store : Store) : Bool :=
  match app.upgradePlan store with
  | some height => 0 < height && height ≤ app.height header
  | none => false

/-! ### The node -/

/-- `OptimisticProcessingInfo` of a run that was started; `completed` is the signal in the
completion channel. -/
structure OptimisticInfo (Result : Type) where
  hash : Bytes
  aborted : Bool
  result : Result
  completed : Bool

/-- How far a goroutine of `ProcessProposalHandler` has come: the rest of `ProcessBlock`, its
outcome before the lock is taken, after that, and after the signal. -/
inductive Progress (Result : Type) where
  | running (program : StoreProgram Bytes Bytes String Result)
  | returned (outcome : Except String Result)
  | published
  | ended

structure Goroutine (Header Evidence Result : Type) where
  request : BlockRequest Header Evidence
  progress : Progress Result

/-- The proposal that `ProcessProposal` is at, with the context that the handler was given. -/
structure Handling (Header Evidence Other : Type) where
  request : BlockRequest Header Evidence
  ctx : Context Header Other

/-- The branch that `stateToCommit` points to. -/
inductive Chosen where
  | proposal
  | deliver
  deriving DecidableEq, Repr

/-- What the caller's thread is at. -/
inductive Phase (Header Evidence Other Result : Type) where
  | idle
  /-- before the checks of the handler -/
  | validating (handling : Handling Header Evidence Other)
  /-- accepted, before it looks whether a run was started -/
  | claiming (handling : Handling Header Evidence Other)
  /-- it made the entry of a run, before it looks at the upgrade plan -/
  | launching (handling : Handling Header Evidence Other)
  /-- it aborted the run because of an upgrade, before the signal -/
  | skipping (request : BlockRequest Header Evidence)
  /-- a run was started before, and the hashes are to be compared -/
  | comparing (request : BlockRequest Header Evidence)
  /-- the hashes differ -/
  | aborting (request : BlockRequest Header Evidence)
  | replying (request : BlockRequest Header Evidence) (accepted : Bool)
  /-- in `FinalizeBlocker`, before the signal is received -/
  | awaiting (request : BlockRequest Header Evidence)
  /-- in `FinalizeBlocker`, with or without a signal received -/
  | deciding (request : BlockRequest Header Evidence) (signalled : Bool)
  | finalized (response : FinalizeResponse Other Result) (chosen : Chosen)
  | failed (error : String)
  | committed (response : FinalizeResponse Other Result)

structure Node (Header Evidence Other Result : Type) where
  cms : Store
  deliverState : Option (Branch Header Other)
  processProposalState : Option (Branch Header Other)
  processProposalCleanCtx : Option (Branch Header Other)
  info : Option (OptimisticInfo Result)
  goroutines : List (Goroutine Header Evidence Result)
  phase : Phase Header Evidence Other Result
  /-- the answers that `ProcessProposal` gave -/
  verdicts : List (BlockRequest Header Evidence × Bool)

/-- A node that committed a block before. -/
def Node.resumed (cms : Store) : Node Header Evidence Other Result where
  cms := cms
  deliverState := none
  processProposalState := none
  processProposalCleanCtx := none
  info := none
  goroutines := []
  phase := .idle
  verdicts := []

/-- A node after `InitChain`, which runs the genesis on both branches and commits neither. -/
def Node.genesis (ctx : Context Header Other) (store : Store) :
    Node Header Evidence Other Result where
  cms := fun _ => none
  deliverState := some { ctx, store }
  processProposalState := some { ctx, store }
  processProposalCleanCtx := none
  info := none
  goroutines := []
  phase := .idle
  verdicts := []

/-! ### The calls -/

inductive Event (Header Evidence : Type) where
  /-- `ProcessProposal` is called -/
  | propose (request : BlockRequest Header Evidence)
  /-- the call goes on -/
  | advance
  /-- a goroutine goes on -/
  | goroutine (index : Nat)
  /-- `FinalizeBlock` is called -/
  | finalize (request : BlockRequest Header Evidence)
  /-- `Commit` is called -/
  | commit

namespace Node

variable (app : Application Header Evidence Other Result)

/-- The branch with the header and the hash of a request and the parameters that its own store
holds. -/
def prepare (branch : Branch Header Other) (request : BlockRequest Header Evidence) :
    Branch Header Other where
  ctx :=
    { header := request.header
      headerHash := request.hash
      consParams := app.consensusParams branch.store }
  store := branch.store

/-- `setDeliverState` or `setProcessProposalState` with what `prepare` sets. -/
def prepareOr (branch : Option (Branch Header Other)) (cms : Store)
    (request : BlockRequest Header Evidence) : Branch Header Other :=
  match branch with
  | some branch => prepare app branch request
  | none =>
    { ctx :=
        { header := request.header
          headerHash := request.hash
          consParams := app.consensusParams cms }
      store := cms }

variable (node : Node Header Evidence Other Result) (request : BlockRequest Header Evidence)

/-- The start of `BaseApp.ProcessProposal`. The clean context has the store that the height
starts from and the context of the shared branch. -/
def beginProposal : Option (Node Header Evidence Other Result) :=
  if app.chainIDOf request.header ≠ app.chainID then some node
  else
    let branch := prepareOr app node.processProposalState node.cms request
    let cleanMS := (node.deliverState.map Branch.store).getD node.cms
    some { node with
      processProposalState := some branch
      processProposalCleanCtx := some { branch with store := cleanMS }
      phase := .validating { request, ctx := branch.ctx } }

/-- The start of `BaseApp.FinalizeBlock`, up to where `FinalizeBlocker` reads the channel. -/
def beginFinalize : Option (Node Header Evidence Other Result) :=
  if app.chainIDOf request.header ≠ app.chainID then
    some { node with phase := .failed "unexpected ChainID" }
  else
    some { node with
      deliverState := some (prepareOr app node.deliverState node.cms request)
      phase := if node.info.isSome then .awaiting request else .deciding request false }

/-- The response of `FinalizeBlocker` once a branch is written to the store. -/
def respond (result : Result) (store : Store) : FinalizeResponse Other Result where
  result := result
  consensusParamUpdates := app.consensusParams store
  appHash := app.workingHash store

/-- The rest of `FinalizeBlocker` on the branch of the proposals. -/
def takeOver (branch : Branch Header Other) (result : Result) : Node Header Evidence Other Result :=
  { node with
    cms := branch.store
    info := none
    phase := .finalized (respond app result branch.store) .proposal }

/-- The rest of `FinalizeBlocker` on the branch of its own. -/
def deliver (node : Node Header Evidence Other Result) (branch : Branch Header Other)
    (request : BlockRequest Header Evidence) : Node Header Evidence Other Result :=
  match (mapStore Bytes Bytes).run (app.processBlock branch.ctx request) branch.store with
  | (.ok result, store) =>
    { node with
      cms := store
      deliverState := some { branch with store }
      info := none
      phase := .finalized (respond app result store) .deliver }
  | (.error error, store) =>
    { node with
      deliverState := some { branch with store }
      info := none
      phase := .failed error }

/-- `FinalizeBlocker` after it has read the optimistic info. -/
def settle (signalled : Bool) : Option (Node Header Evidence Other Result) :=
  match signalled, node.info with
  | true, some info =>
    if info.aborted = false ∧ info.hash = request.hash then
      node.processProposalState.map fun branch => takeOver app node branch info.result
    else node.deliverState.map fun branch => deliver app node branch request
  | _, _ => node.deliverState.map fun branch => deliver app node branch request

/-- The caller's thread goes on. -/
def advance : Option (Node Header Evidence Other Result) :=
  match node.phase with
  | .validating handling =>
    node.processProposalCleanCtx.map fun clean =>
      if app.accepts clean handling.request then { node with phase := .claiming handling }
      else { node with phase := .replying handling.request false }
  | .claiming handling =>
    match node.info with
    | none => some { node with
        info := some { hash := handling.request.hash, aborted := false, result := app.noResult,
                       completed := false }
        phase := .launching handling }
    | some _ => some { node with phase := .comparing handling.request }
  | .launching handling =>
    match node.info, node.processProposalState with
    | some info, some branch =>
      if app.upgradeDue handling.ctx.header branch.store then
        some { node with
          info := some { info with aborted := true }
          phase := .skipping handling.request }
      else some { node with
        goroutines := node.goroutines ++
          [{ request := handling.request
             progress := .running (app.processBlock handling.ctx handling.request) }]
        phase := .replying handling.request true }
    | _, _ => none
  | .skipping request =>
    match node.info with
    | some info =>
      if info.completed then none
      else some { node with
        info := some { info with completed := true }
        phase := .replying request true }
    | none => none
  | .comparing request =>
    node.info.map fun info =>
      if info.hash = request.hash then { node with phase := .replying request true }
      else { node with phase := .aborting request }
  | .aborting request =>
    node.info.map fun info =>
      { node with
        info := some { info with aborted := true }
        phase := .replying request true }
  | .replying request accepted =>
    some { node with
      phase := .idle
      verdicts := node.verdicts ++ [(request, accepted)] }
  | .awaiting request =>
    match node.info with
    | some info =>
      if info.completed then some { node with
        info := some { info with completed := false }
        phase := .deciding request true }
      else none
    | none => none
  | .deciding request signalled => settle app node request signalled
  | _ => none

/-- What a goroutine does next to the shared branch and the optimistic info. -/
def advanceGoroutine (index : Nat) (goroutine : Goroutine Header Evidence Result)
    (info : OptimisticInfo Result) (branch : Branch Header Other) :
    Option (Node Header Evidence Other Result) :=
  let set (progress : Progress Result) := node.goroutines.set index { goroutine with progress }
  match goroutine.progress with
  | .running program =>
    match program.outcome with
    | some outcome => some { node with goroutines := set (.returned outcome) }
    | none =>
      ((mapStore Bytes Bytes).step program branch.store).map fun next =>
        { node with
          processProposalState := some { branch with store := next.2 }
          goroutines := set (.running next.1) }
  | .returned (.ok result) =>
    some { node with info := some { info with result }, goroutines := set .published }
  | .returned (.error _) =>
    some { node with info := some { info with aborted := true }, goroutines := set .published }
  | .published =>
    if info.completed then none
    else some { node with
      info := some { info with completed := true }
      goroutines := set .ended }
  | .ended => none

/-- The branch that was chosen to be committed. -/
def chosenBranch : Chosen → Option (Branch Header Other)
  | .proposal => node.processProposalState
  | .deliver => node.deliverState

/-- `Commit` writes the chosen branch once more and drops both. -/
def commit : Option (Node Header Evidence Other Result) :=
  match node.phase with
  | .finalized response chosen =>
    (node.chosenBranch chosen).map fun branch =>
      { node with
        cms := branch.store
        deliverState := none
        processProposalState := none
        phase := .committed response }
  | _ => none

/-- The machine of one height. -/
def step : Event Header Evidence → Option (Node Header Evidence Other Result)
  | .propose request =>
    match node.phase with
    | .idle => beginProposal app node request
    | _ => none
  | .finalize request =>
    match node.phase with
    | .idle => beginFinalize app node request
    | _ => none
  | .advance => advance app node
  | .goroutine index =>
    match node.goroutines[index]?, node.info, node.processProposalState with
    | some goroutine, some info, some branch => advanceGoroutine node index goroutine info branch
    | _, _, _ => none
  | .commit => commit node

end Node

/-! ### What a call can do next -/

/-- The steps of the caller's thread, each with what it finds. -/
inductive Advances (app : Application Header Evidence Other Result)
    (node : Node Header Evidence Other Result) : Node Header Evidence Other Result → Prop where
  | accept {handling : Handling Header Evidence Other} {clean : Branch Header Other}
      (phase : node.phase = .validating handling)
      (isClean : node.processProposalCleanCtx = some clean)
      (accepted : app.accepts clean handling.request = true) :
      Advances app node { node with phase := .claiming handling }
  | reject {handling : Handling Header Evidence Other} {clean : Branch Header Other}
      (phase : node.phase = .validating handling)
      (isClean : node.processProposalCleanCtx = some clean)
      (rejected : app.accepts clean handling.request = false) :
      Advances app node { node with phase := .replying handling.request false }
  | claim {handling : Handling Header Evidence Other} (phase : node.phase = .claiming handling)
      (unused : node.info = none) :
      Advances app node { node with
        info := some { hash := handling.request.hash, aborted := false, result := app.noResult,
                       completed := false }
        phase := .launching handling }
  | find {handling : Handling Header Evidence Other} (phase : node.phase = .claiming handling) :
      Advances app node { node with phase := .comparing handling.request }
  | skip {handling : Handling Header Evidence Other} {info : OptimisticInfo Result}
      (phase : node.phase = .launching handling) (isInfo : node.info = some info) :
      Advances app node { node with
        info := some { info with aborted := true }
        phase := .skipping handling.request }
  | launch {handling : Handling Header Evidence Other} {info : OptimisticInfo Result}
      {branch : Branch Header Other} (phase : node.phase = .launching handling)
      (isInfo : node.info = some info) (isBranch : node.processProposalState = some branch) :
      Advances app node { node with
        goroutines := node.goroutines ++
          [{ request := handling.request
             progress := .running (app.processBlock handling.ctx handling.request) }]
        phase := .replying handling.request true }
  | signal {request : BlockRequest Header Evidence} {info : OptimisticInfo Result}
      (phase : node.phase = .skipping request) (isInfo : node.info = some info) :
      Advances app node { node with
        info := some { info with completed := true }
        phase := .replying request true }
  | agree {request : BlockRequest Header Evidence} (phase : node.phase = .comparing request) :
      Advances app node { node with phase := .replying request true }
  | differ {request : BlockRequest Header Evidence} (phase : node.phase = .comparing request) :
      Advances app node { node with phase := .aborting request }
  | abort {request : BlockRequest Header Evidence} {info : OptimisticInfo Result}
      (phase : node.phase = .aborting request) (isInfo : node.info = some info) :
      Advances app node { node with
        info := some { info with aborted := true }
        phase := .replying request true }
  | reply {request : BlockRequest Header Evidence} {accepted : Bool}
      (phase : node.phase = .replying request accepted) :
      Advances app node { node with
        phase := .idle
        verdicts := node.verdicts ++ [(request, accepted)] }
  | receive {request : BlockRequest Header Evidence} {info : OptimisticInfo Result}
      (phase : node.phase = .awaiting request) (isInfo : node.info = some info)
      (completed : info.completed = true) :
      Advances app node { node with
        info := some { info with completed := false }
        phase := .deciding request true }
  | takeOver {request : BlockRequest Header Evidence} {info : OptimisticInfo Result}
      {branch : Branch Header Other} (phase : node.phase = .deciding request true)
      (isInfo : node.info = some info) (isBranch : node.processProposalState = some branch)
      (notAborted : info.aborted = false) (sameHash : info.hash = request.hash) :
      Advances app node (node.takeOver app branch info.result)
  | deliver {request : BlockRequest Header Evidence} {signalled : Bool}
      {branch : Branch Header Other} (phase : node.phase = .deciding request signalled)
      (isBranch : node.deliverState = some branch) :
      Advances app node (node.deliver app branch request)

variable {app : Application Header Evidence Other Result}
  {node after : Node Header Evidence Other Result}

theorem advances_of_settle {request : BlockRequest Header Evidence} {signalled : Bool}
    (phase : node.phase = .deciding request signalled)
    (stepped : node.settle app request signalled = some after) : Advances app node after := by
  unfold Node.settle at stepped
  split at stepped
  · rename_i isInfo
    split at stepped
    · rename_i taken
      obtain ⟨branch, isBranch, rfl⟩ := map_eq_some_iff.mp stepped
      exact .takeOver phase isInfo isBranch taken.1 taken.2
    · obtain ⟨branch, isBranch, rfl⟩ := map_eq_some_iff.mp stepped
      exact .deliver phase isBranch
  · obtain ⟨branch, isBranch, rfl⟩ := map_eq_some_iff.mp stepped
    exact .deliver phase isBranch

theorem advances_of_step (stepped : node.step app .advance = some after) :
    Advances app node after := by
  simp only [Node.step, Node.advance] at stepped
  split at stepped
  · rename_i phase
    obtain ⟨clean, isClean, rfl⟩ := map_eq_some_iff.mp stepped
    split
    · rename_i accepted
      exact .accept phase isClean accepted
    · rename_i rejected
      exact .reject phase isClean (by simpa using rejected)
  · rename_i phase
    split at stepped
    · rename_i unused
      cases stepped
      exact .claim phase unused
    · cases stepped
      exact .find phase
  · rename_i phase
    split at stepped
    · rename_i isInfo isBranch
      split at stepped
      · cases stepped
        exact .skip phase isInfo
      · cases stepped
        exact .launch phase isInfo isBranch
    · cases stepped
  · rename_i phase
    split at stepped
    · rename_i isInfo
      split at stepped <;> cases stepped
      exact .signal phase isInfo
    · cases stepped
  · rename_i phase
    obtain ⟨info, isInfo, rfl⟩ := map_eq_some_iff.mp stepped
    split
    · exact .agree phase
    · exact .differ phase
  · rename_i phase
    obtain ⟨info, isInfo, rfl⟩ := map_eq_some_iff.mp stepped
    exact .abort phase isInfo
  · rename_i phase
    cases stepped
    exact .reply phase
  · rename_i phase
    split at stepped
    · rename_i isInfo
      split at stepped
      · rename_i completed
        cases stepped
        exact .receive phase isInfo completed
      · cases stepped
    · cases stepped
  · rename_i phase
    exact advances_of_settle phase stepped
  · cases stepped

end SeiChain.App
