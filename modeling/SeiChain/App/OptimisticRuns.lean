/-
This file proves that processing a proposal ahead of its decision cannot be seen
from outside. The invariant follows the entry of the one run that a height can
have: until the decision the store that the height starts from is untouched, and
the goroutine's branch together with the rest of its program always amounts to
processing its block on that store. The decided block is therefore answered and
committed as by a node that received no proposal.
-/

import SeiChain.App.Proposals

namespace SeiChain.App

open Library List Option Node

variable {Header Evidence Other Result : Type}

/-! ### Processing a block once -/

/-- The store that a height starts from. -/
def Node.base (start : Node Header Evidence Other Result) : Store :=
  (start.deliverState.map Branch.store).getD start.cms

/-- The nodes that a height can start with. -/
inductive Start : Node Header Evidence Other Result → Prop where
  | resumed (cms : Store) : Start (resumed cms)
  | genesis (ctx : Context Header Other) (store : Store) : Start (genesis ctx store)

variable (app : Application Header Evidence Other Result)

/-- The branch of a block that is processed first on the given store. -/
def freshBranch (base : Store) (request : BlockRequest Header Evidence) : Branch Header Other where
  ctx :=
    { header := request.header
      headerHash := request.hash
      consParams := app.consensusParams base }
  store := base

/-- What `ProcessBlock` gives for a block on the given store, and the store it leaves. -/
def processed (base : Store) (request : BlockRequest Header Evidence) :
    Except String Result × Store :=
  (mapStore Bytes Bytes).run (app.processBlock (freshBranch app base request).ctx request) base

/-- The requests of a run: the decided block is finalized, and a proposal of its hash is it. -/
def SameBlock (decided : BlockRequest Header Evidence) (_ : Node Header Evidence Other Result) :
    Event Header Evidence → Prop
  | .propose request => request.hash = decided.hash → request = decided
  | .finalize request => request = decided
  | _ => True

instance [DecidableEq Header] [DecidableEq Evidence] (decided : BlockRequest Header Evidence)
    (node : Node Header Evidence Other Result) (event : Event Header Evidence) :
    Decidable (SameBlock decided node event) := by
  unfold SameBlock
  split <;> infer_instance

/-! ### The one run of a height -/

def Progress.isEnded : Progress Result → Bool
  | ended => true
  | _ => false

/-- A goroutine works off its block: what is left to do on its branch amounts to the whole on the
store that the height starts from, and unless it was aborted it leaves the result in the info. -/
def Goroutine.Works (base store : Store) (info : OptimisticInfo Result)
    (goroutine : Goroutine Header Evidence Result) : Prop :=
  match goroutine.progress with
  | .running program =>
    (mapStore Bytes Bytes).run program store = processed app base goroutine.request
  | .returned outcome => processed app base goroutine.request = (outcome, store)
  | .published | .ended =>
    info.aborted = false → processed app base goroutine.request = (.ok info.result, store)

/-- What the shared branch, the info and the goroutines of a height can be between two calls.
`pending` says that the signal has not been received. -/
inductive Slot (base : Store) (decided : BlockRequest Header Evidence) (pending : Bool) :
    Option (Branch Header Other) → Option (OptimisticInfo Result) →
    List (Goroutine Header Evidence Result) → Prop where
  | free {branch : Option (Branch Header Other)}
      (clean : ∀ held, branch = some held → held.store = base) :
      Slot base decided pending branch none []
  | skipped {branch : Option (Branch Header Other)} {info : OptimisticInfo Result}
      (aborted : info.aborted = true) (completed : info.completed = pending) :
      Slot base decided pending branch (some info) []
  | used {branch : Branch Header Other} {info : OptimisticInfo Result}
      {goroutine : Goroutine Header Evidence Result} (hash : info.hash = goroutine.request.hash)
      (same : goroutine.request.hash = decided.hash → goroutine.request = decided)
      (works : goroutine.Works app base branch.store info)
      (completed : info.completed = (goroutine.progress.isEnded && pending)) :
      Slot base decided pending (some branch) (some info) [goroutine]

variable {app} {base : Store} {pending : Bool}
  {node after : Node Header Evidence Other Result} {info : OptimisticInfo Result}
  {branch : Branch Header Other} {goroutine : Goroutine Header Evidence Result}
  {decided : BlockRequest Header Evidence}

/-- A branch prepared for a request is the fresh one on the store that it has. -/
theorem prepareOr_eq (held : Option (Branch Header Other)) (cms : Store)
    (request : BlockRequest Header Evidence) :
    prepareOr app held cms request =
      freshBranch app ((held.map Branch.store).getD cms) request := by
  cases held <;> rfl

/-- Setting the header of the shared branch leaves its store. -/
theorem Slot.prepared {held : Option (Branch Header Other)} {cms : Store}
    {infos : Option (OptimisticInfo Result)}
    {goroutines : List (Goroutine Header Evidence Result)} (request : BlockRequest Header Evidence)
    (clean : held = none → cms = base) (slot : Slot app base decided pending held infos goroutines) :
    Slot app base decided pending (some (prepareOr app held cms request)) infos goroutines ∧
    (infos = none → prepareOr app held cms request = freshBranch app base request) := by
  cases slot with
  | free stores =>
    have store : (held.map Branch.store).getD cms = base := by
      cases held with
      | none => exact clean rfl
      | some branch => exact stores branch rfl
    rw [prepareOr_eq, store]
    exact ⟨.free (by rintro _ ⟨⟩; rfl), fun _ => rfl⟩
  | skipped aborted completed => exact ⟨.skipped aborted completed, nofun⟩
  | used hash same works completed => exact ⟨.used hash same works completed, nofun⟩

section

variable {held : Option (Branch Header Other)} {infos : Option (OptimisticInfo Result)}
  {goroutines : List (Goroutine Header Evidence Result)}

theorem Slot.of_none (slot : Slot app base decided pending held infos goroutines)
    (noInfo : infos = none) :
    goroutines = [] ∧ ∀ branch, held = some branch → branch.store = base := by
  cases slot with
  | free clean => exact ⟨rfl, clean⟩
  | skipped | used => cases noInfo

/-- An aborted run stays one. -/
theorem Slot.abort (slot : Slot app base decided pending held (some info) goroutines) :
    Slot app base decided pending held (some { info with aborted := true }) goroutines := by
  cases slot with
  | skipped _ completed => exact .skipped rfl completed
  | used hash same works completed =>
    refine .used hash same ?_ completed
    rw [Goroutine.Works] at works ⊢
    split
    · rename_i running
      rwa [running] at works
    · rename_i returned
      rwa [returned] at works
    · exact nofun
    · exact nofun

section

variable (slot : Slot app base decided true held (some info) goroutines)

include slot

/-- The signal is only there once the goroutine has ended. -/
theorem Slot.receive (completed : info.completed = true) :
    Slot app base decided false held (some { info with completed := false }) goroutines ∧
    ∀ goroutine ∈ goroutines, goroutine.progress = .ended := by
  cases slot with
  | skipped aborted => exact ⟨.skipped aborted rfl, nofun⟩
  | used hash same works signalled =>
    rename_i goroutine
    rw [completed] at signalled
    have ended : goroutine.progress = .ended := by
      cases progress : goroutine.progress with
      | ended => rfl
      | running | returned | published =>
        rw [progress] at signalled
        cases signalled
    refine ⟨.used hash same ?_ (by simp), ?_⟩
    · exact works
    · simpa using ended

theorem Slot.signalled
    (ended : ∀ goroutine ∈ goroutines, goroutine.progress = .ended) : info.completed = true := by
  cases slot with
  | skipped _ completed => exact completed
  | used hash same works completed =>
    rename_i goroutine
    rw [completed, ended goroutine mem_cons_self]
    rfl

end

/-- A run that was not aborted holds the block of its hash. -/
theorem Slot.taken (slot : Slot app base decided pending (some branch) (some info) goroutines)
    (ended : ∀ goroutine ∈ goroutines, goroutine.progress = .ended)
    (notAborted : info.aborted = false) (hash : info.hash = decided.hash) :
    processed app base decided = (.ok info.result, branch.store) := by
  cases slot with
  | skipped aborted => exact absurd (aborted.symm.trans notAborted) (by decide)
  | used isHash same works completed =>
    rename_i goroutine
    rw [Goroutine.Works, ended goroutine mem_cons_self] at works
    rw [← same (isHash.symm.trans hash)]
    exact works notAborted

end

/-! ### Steps of the goroutine -/

/-- A goroutine leaves what the calls hold: it changes the shared branch, the info and itself. -/
structure SameCall (node after : Node Header Evidence Other Result) : Prop where
  cms : after.cms = node.cms
  deliverState : after.deliverState = node.deliverState
  clean : after.processProposalCleanCtx = node.processProposalCleanCtx
  phase : after.phase = node.phase
  verdicts : after.verdicts = node.verdicts
  branch : after.processProposalState.isSome = true
  started : node.info.isSome = true
  info : after.info.isSome = true
  count : after.goroutines.length = node.goroutines.length

variable {index : Nat}

section

variable (stepped : node.step app (.goroutine index) = some after)

include stepped

/-- What a step of a goroutine finds. -/
theorem goroutine_step :
    ∃ goroutine info branch, node.goroutines[index]? = some goroutine ∧ node.info = some info ∧
      node.processProposalState = some branch ∧
      node.advanceGoroutine index goroutine info branch = some after := by
  rw [step] at stepped
  cases isGoroutine : node.goroutines[index]? with
  | none => simp [isGoroutine] at stepped
  | some goroutine =>
    cases isInfo : node.info with
    | none => simp [isGoroutine, isInfo] at stepped
    | some info =>
      cases isBranch : node.processProposalState with
      | none => simp [isGoroutine, isInfo, isBranch] at stepped
      | some branch =>
        simp only [isGoroutine, isInfo, isBranch] at stepped
        exact ⟨goroutine, info, branch, rfl, rfl, rfl, stepped⟩

/-- What a goroutine can do. -/
inductive Works (node : Node Header Evidence Other Result) (index : Nat)
    (request : BlockRequest Header Evidence) (info : OptimisticInfo Result)
    (branch : Branch Header Other) : Progress Result → Node Header Evidence Other Result → Prop where
  | operate {program rest : StoreProgram Bytes Bytes String Result} {store : Store}
      (stepped : (mapStore Bytes Bytes).step program branch.store = some (rest, store)) :
      Works node index request info branch (.running program) { node with
        processProposalState := some { branch with store }
        goroutines := node.goroutines.set index { request, progress := .running rest } }
  | finish {program : StoreProgram Bytes Bytes String Result} {outcome : Except String Result}
      (ended : program.outcome = some outcome) :
      Works node index request info branch (.running program) { node with
        goroutines := node.goroutines.set index { request, progress := .returned outcome } }
  | publish (result : Result) :
      Works node index request info branch (.returned (.ok result)) { node with
        info := some { info with result }
        goroutines := node.goroutines.set index { request, progress := .published } }
  | abort (error : String) :
      Works node index request info branch (.returned (.error error)) { node with
        info := some { info with aborted := true }
        goroutines := node.goroutines.set index { request, progress := .published } }
  | signal (empty : info.completed = false) :
      Works node index request info branch .published { node with
        info := some { info with completed := true }
        goroutines := node.goroutines.set index { request, progress := .ended } }

omit stepped in
theorem works_of_advance
    (stepped : node.advanceGoroutine index goroutine info branch = some after) :
    Works node index goroutine.request info branch goroutine.progress after := by
  rw [advanceGoroutine] at stepped
  cases isProgress : goroutine.progress with
  | running program =>
    simp only [isProgress] at stepped
    cases ended : program.outcome with
    | some outcome =>
      simp only [ended, Option.some.injEq] at stepped
      subst stepped
      exact .finish ended
    | none =>
      simp only [ended] at stepped
      obtain ⟨⟨rest, store⟩, next, rfl⟩ := map_eq_some_iff.mp stepped
      exact .operate next
  | returned outcome =>
    cases outcome with
    | ok result =>
      simp only [isProgress, Option.some.injEq] at stepped
      subst stepped
      exact .publish result
    | error error =>
      simp only [isProgress, Option.some.injEq] at stepped
      subst stepped
      exact .abort error
  | published =>
    simp only [isProgress] at stepped
    split at stepped
    · cases stepped
    rename_i empty
    cases stepped
    exact .signal (by simpa using empty)
  | ended => simp [isProgress] at stepped

theorem sameCall_of_step : SameCall node after := by
  obtain ⟨⟨request, progress⟩, info, branch, _, isInfo, isBranch, stepped⟩ := goroutine_step stepped
  cases works_of_advance stepped <;> constructor <;> simp [isInfo, isBranch]

/-- One step of the goroutine keeps to what it has to do. -/
theorem Slot.step
    (slot : Slot app base decided true node.processProposalState node.info node.goroutines) :
    Slot app base decided true after.processProposalState after.info after.goroutines := by
  obtain ⟨goroutine, info, branch, isGoroutine, isInfo, isBranch, stepped⟩ := goroutine_step stepped
  rw [isInfo, isBranch] at slot
  generalize isList : node.goroutines = goroutines at slot
  rw [isList] at isGoroutine
  cases slot with
  | skipped => simp at isGoroutine
  | used hash same works completed =>
    obtain ⟨rfl, rfl⟩ : index = 0 ∧ goroutine = _ := by
      simpa [getElem?_singleton, eq_comm] using isGoroutine
    obtain ⟨request, progress⟩ := goroutine
    cases works_of_advance stepped with
    | operate next =>
      simp only [isList, isInfo, set_cons_zero]
      exact .used hash same ((KVStore.run_of_step next).symm.trans works) completed
    | finish ended =>
      simp only [isList, isInfo, isBranch, set_cons_zero]
      exact .used hash same (works.symm.trans (KVStore.run_of_outcome ended)) completed
    | publish =>
      simp only [isList, isBranch, set_cons_zero]
      exact .used hash same (fun _ => works) completed
    | abort =>
      simp only [isList, isBranch, set_cons_zero]
      exact .used hash same nofun completed
    | signal =>
      simp only [isList, isBranch, set_cons_zero]
      exact .used hash same works rfl

end

/-! ### The calls -/

/-- The node is before the decision and holds what the height started with. -/
structure Before (start node : Node Header Evidence Other Result) : Prop where
  cms : node.cms = start.cms
  deliverState : node.deliverState = start.deliverState
  shared : node.processProposalState = none → start.deliverState = none

/-- The answer of `FinalizeBlock`, if there is one. -/
def Phase.answer : Phase Header Evidence Other Result →
    Option (Except String (FinalizeResponse Other Result))
  | finalized response _ => some (.ok response)
  | committed response => some (.ok response)
  | failed error => some (.error error)
  | _ => none

def Phase.isCommitted : Phase Header Evidence Other Result → Bool
  | committed _ => true
  | _ => false

variable (app)

/-- The block is answered with what processing it once gives, and its store is written. -/
structure Answered (base store : Store) (decided : BlockRequest Header Evidence)
    (response : FinalizeResponse Other Result) : Prop where
  chain : app.chainIDOf decided.header = app.chainID
  processed : processed app base decided = (.ok response.result, store)
  response : response = respond app response.result store

/-- The invariant of a height that started with `start`, by what the caller's thread is at. -/
def CallOk (start : Node Header Evidence Other Result) (decided : BlockRequest Header Evidence)
    (node : Node Header Evidence Other Result) : Prop :=
  match node.phase with
  | .idle | .replying _ _ | .comparing _ | .aborting _ =>
    Before start node ∧
    Slot app start.base decided true node.processProposalState node.info node.goroutines
  | .validating handling | .claiming handling =>
    Before start node ∧
    Slot app start.base decided true node.processProposalState node.info node.goroutines ∧
    node.processProposalState.isSome ∧
    (handling.request.hash = decided.hash → handling.request = decided) ∧
    (node.info = none → handling.ctx = (freshBranch app start.base handling.request).ctx)
  | .launching handling =>
    Before start node ∧ node.goroutines = [] ∧
    (handling.request.hash = decided.hash → handling.request = decided) ∧
    handling.ctx = (freshBranch app start.base handling.request).ctx ∧
    (∀ branch, node.processProposalState = some branch → branch.store = start.base) ∧
    ∀ info, node.info = some info → info.hash = handling.request.hash ∧ info.aborted = false ∧
      info.completed = false
  | .skipping _ =>
    Before start node ∧ node.goroutines = [] ∧
    ∀ info, node.info = some info → info.aborted = true ∧ info.completed = false
  | .awaiting request =>
    request = decided ∧ app.chainIDOf decided.header = app.chainID ∧ node.cms = start.cms ∧
    node.deliverState = some (freshBranch app start.base decided) ∧ node.info.isSome ∧
    Slot app start.base decided true node.processProposalState node.info node.goroutines
  | .deciding request signalled =>
    request = decided ∧ app.chainIDOf decided.header = app.chainID ∧ node.cms = start.cms ∧
    node.deliverState = some (freshBranch app start.base decided) ∧
    (signalled = false → node.info = none) ∧
    (signalled = true → Slot app start.base decided false node.processProposalState node.info
      node.goroutines ∧ ∀ goroutine ∈ node.goroutines, goroutine.progress = .ended)
  | .finalized response chosen =>
    Answered app start.base node.cms decided response ∧ node.info = none ∧
    ∀ branch, node.chosenBranch chosen = some branch → branch.store = node.cms
  | .failed error =>
    node.cms = start.cms ∧
    ((app.chainIDOf decided.header ≠ app.chainID ∧ error = "unexpected ChainID") ∨
      (app.chainIDOf decided.header = app.chainID ∧
        (processed app start.base decided).1 = .error error))
  | .committed response => Answered app start.base node.cms decided response ∧ node.info = none

variable {app} {start : Node Header Evidence Other Result}

/-! ### What each event keeps -/

section

variable (ok : CallOk app start decided node)

include ok

theorem CallOk.goroutine_step (stepped : node.step app (.goroutine index) = some after) :
    CallOk app start decided after := by
  have same := sameCall_of_step stepped
  have before : Before start node → Before start after := fun before =>
    { cms := same.cms.trans before.cms
      deliverState := same.deliverState.trans before.deliverState
      shared := fun missing => absurd missing (isSome_iff_ne_none.mp same.branch) }
  -- No goroutine can step where there is none, or where there is no info.
  have some : node.goroutines ≠ [] := by
    obtain ⟨_, _, _, isGoroutine, _⟩ := SeiChain.App.goroutine_step stepped
    rintro empty
    simp [empty] at isGoroutine
  have started : node.info ≠ none := isSome_iff_ne_none.mp same.started
  rw [CallOk, same.phase]
  rw [CallOk] at ok
  cases phase : node.phase with
  | idle | replying | comparing | aborting =>
    simp only [phase] at ok
    exact ⟨before ok.1, ok.2.step stepped⟩
  | validating handling | claiming handling =>
    simp only [phase] at ok
    obtain ⟨isBefore, slot, -, isDecided, _⟩ := ok
    refine ⟨before isBefore, slot.step stepped, same.branch, isDecided, fun missing => ?_⟩
    exact absurd missing (isSome_iff_ne_none.mp same.info)
  | launching handling | skipping request =>
    simp only [phase] at ok
    exact absurd ok.2.1 some
  | awaiting request =>
    simp only [phase] at ok
    obtain ⟨isDecided, chain, cms, deliver, _, slot⟩ := ok
    exact ⟨isDecided, chain, same.cms.trans cms, same.deliverState.trans deliver, same.info,
      slot.step stepped⟩
  | deciding request signalled =>
    simp only [phase] at ok
    obtain ⟨_, _, _, _, unsignalled, signalledOk⟩ := ok
    cases signalled with
    | false => exact absurd (unsignalled rfl) started
    | true =>
      obtain ⟨⟨request, progress⟩, _, _, isGoroutine, _, _, advanced⟩ :=
        SeiChain.App.goroutine_step stepped
      have ended : progress = .ended := (signalledOk rfl).2 _ (mem_of_getElem? isGoroutine)
      subst ended
      nomatch works_of_advance advanced
  | finalized response =>
    simp only [phase] at ok
    exact absurd ok.2.1 started
  | failed =>
    simp only [phase] at ok
    exact ⟨same.cms.trans ok.1, ok.2⟩
  | committed response =>
    simp only [phase] at ok
    exact absurd ok.2 started

theorem CallOk.propose {request : BlockRequest Header Evidence}
    (isDecided : request.hash = decided.hash → request = decided)
    (stepped : node.step app (.propose request) = some after) :
    CallOk app start decided after := by
  rw [step] at stepped
  cases phase : node.phase with
  | idle =>
    simp only [phase, beginProposal] at stepped
    split at stepped
    · cases stepped
      exact ok
    · cases stepped
      rw [CallOk] at ok
      simp only [phase] at ok
      obtain ⟨before, slot⟩ := ok
      have clean : node.processProposalState = none → node.cms = start.base := fun missing => by
        rw [base, before.shared missing, before.cms]
        rfl
      obtain ⟨prepared, fresh⟩ := slot.prepared request clean
      refine ⟨⟨before.cms, before.deliverState, ?_⟩, prepared, rfl, isDecided, fun missing => ?_⟩
      · rintro ⟨⟩
      · exact congrArg Branch.ctx (fresh missing)
  | _ => simp [phase] at stepped

theorem CallOk.finalize (stepped : node.step app (.finalize decided) = some after) :
    CallOk app start decided after := by
  rw [step] at stepped
  cases phase : node.phase with
  | idle =>
    rw [CallOk] at ok
    simp only [phase] at ok
    obtain ⟨before, slot⟩ := ok
    simp only [phase, beginFinalize] at stepped
    split at stepped
    · rename_i otherChain
      cases stepped
      exact ⟨before.cms, .inl ⟨otherChain, rfl⟩⟩
    · rename_i sameChain
      cases stepped
      have chain := not_not.mp sameChain
      have deliver : some (prepareOr app node.deliverState node.cms decided) =
          some (freshBranch app start.base decided) := by
        rw [prepareOr_eq, before.deliverState, before.cms]
        rfl
      cases isInfo : node.info with
      | none => exact ⟨rfl, chain, before.cms, deliver, fun _ => rfl, by rintro ⟨⟩⟩
      | some =>
        rw [isInfo] at slot
        exact ⟨rfl, chain, before.cms, deliver, rfl, slot⟩
  | _ => simp [phase] at stepped

theorem CallOk.commit
    (stepped : node.step app .commit = some after) : CallOk app start decided after := by
  rw [Node.step, Node.commit] at stepped
  cases phase : node.phase with
  | finalized =>
    rw [CallOk] at ok
    simp only [phase] at ok stepped
    obtain ⟨answered, noInfo, store⟩ := ok
    obtain ⟨branch, isBranch, rfl⟩ := map_eq_some_iff.mp stepped
    exact ⟨(store branch isBranch).symm ▸ answered, noInfo⟩
  | _ => simp [phase] at stepped

omit ok in
/-- The decided block is processed on the branch of its own. -/
theorem deliver_ok (chain : app.chainIDOf decided.header = app.chainID)
    (cms : node.cms = start.cms) :
    CallOk app start decided (deliver app node (freshBranch app start.base decided) decided) := by
  rw [deliver]
  generalize run : (mapStore Bytes Bytes).run _ _ = outcome
  have isProcessed : processed app start.base decided = outcome := run
  obtain ⟨result, store⟩ := outcome
  cases result with
  | ok result =>
    refine ⟨⟨chain, isProcessed, rfl⟩, rfl, ?_⟩
    rintro _ ⟨⟩
    rfl
  | error error => exact ⟨cms, .inr ⟨chain, by rw [isProcessed]⟩⟩

theorem CallOk.advance
    (stepped : node.step app .advance = some after) : CallOk app start decided after := by
  rw [CallOk] at ok
  cases advances_of_step stepped with
  | accept phase | agree phase | differ phase | reply phase =>
    simp only [phase] at ok
    exact ⟨{ ok.1 with }, ok.2⟩
  | reject phase | find phase =>
    simp only [phase] at ok
    exact ⟨{ ok.1 with }, ok.2.1⟩
  | claim phase unused =>
    simp only [phase] at ok
    obtain ⟨before, slot, held, isDecided, fresh⟩ := ok
    obtain ⟨noGoroutine, clean⟩ := slot.of_none unused
    refine ⟨{ before with }, noGoroutine, isDecided, fresh unused, clean, ?_⟩
    rintro _ ⟨⟩
    exact ⟨rfl, rfl, rfl⟩
  | skip phase isInfo =>
    simp only [phase] at ok
    obtain ⟨before, noGoroutine, _, _, _, infoOk⟩ := ok
    refine ⟨{ before with }, noGoroutine, ?_⟩
    rintro _ ⟨⟩
    exact ⟨rfl, (infoOk _ isInfo).2.2⟩
  | launch phase isInfo isBranch =>
    simp only [phase] at ok
    obtain ⟨before, noGoroutine, isDecided, ctx, clean, infoOk⟩ := ok
    obtain ⟨hash, notAborted, empty⟩ := infoOk _ isInfo
    refine ⟨{ before with }, ?_⟩
    simp only [noGoroutine, nil_append, isInfo, isBranch]
    refine .used hash isDecided ?_ empty
    rw [clean _ isBranch, ctx]
    rfl
  | signal phase isInfo =>
    simp only [phase] at ok
    obtain ⟨before, noGoroutine, infoOk⟩ := ok
    refine ⟨{ before with }, ?_⟩
    simp only [noGoroutine]
    exact .skipped (infoOk _ isInfo).1 rfl
  | abort phase isInfo =>
    simp only [phase] at ok
    obtain ⟨before, slot⟩ := ok
    rw [isInfo] at slot
    exact ⟨{ before with }, slot.abort⟩
  | receive phase isInfo completed =>
    simp only [phase] at ok
    obtain ⟨isDecided, chain, cms, deliver, _, slot⟩ := ok
    rw [isInfo] at slot
    exact ⟨isDecided, chain, cms, deliver, nofun, fun _ => slot.receive completed⟩
  | takeOver phase isInfo isBranch notAborted sameHash =>
    simp only [phase] at ok
    obtain ⟨rfl, chain, cms, isDeliver, _, signalled⟩ := ok
    obtain ⟨slot, ended⟩ := signalled trivial
    rw [isInfo, isBranch] at slot
    refine ⟨⟨chain, slot.taken ended notAborted sameHash, rfl⟩, rfl, fun held isHeld => ?_⟩
    cases isBranch.symm.trans isHeld
    rfl
  | deliver phase isBranch =>
    simp only [phase] at ok
    obtain ⟨rfl, chain, cms, isDeliver, _⟩ := ok
    cases isDeliver.symm.trans isBranch
    exact deliver_ok chain cms

/-! ### At most one run -/

omit ok in
/-- Only the start of a run adds a goroutine. -/
theorem advance_goroutines (stepped : node.step app .advance = some after) :
    after.goroutines = node.goroutines ∨
    ∃ handling goroutine, node.phase = .launching handling ∧
      after.goroutines = node.goroutines ++ [goroutine] := by
  cases advances_of_step stepped with
  | launch phase => exact .inr ⟨_, _, phase, rfl⟩
  | deliver =>
    rw [deliver]
    split <;> exact .inl rfl
  | _ => exact .inl rfl

theorem CallOk.single_step {event : Event Header Evidence}
    (single : node.goroutines.length ≤ 1) (stepped : node.step app event = some after) :
    after.goroutines.length ≤ 1 := by
  cases event with
  | goroutine =>
    rw [(sameCall_of_step stepped).count]
    exact single
  | propose request =>
    simp only [step, beginProposal] at stepped
    split at stepped
    · split at stepped <;> (cases stepped; exact single)
    · cases stepped
  | finalize request =>
    simp only [step, beginFinalize] at stepped
    split at stepped
    · split at stepped <;> (cases stepped; exact single)
    · cases stepped
  | commit =>
    simp only [Node.step, Node.commit] at stepped
    split at stepped
    · obtain ⟨-, _, rfl⟩ := map_eq_some_iff.mp stepped
      exact single
    · cases stepped
  | advance =>
    rcases advance_goroutines stepped with same | ⟨handling, goroutine, phase, added⟩
    · rw [same]
      exact single
    · rw [CallOk] at ok
      simp only [phase] at ok
      rw [added, ok.2.1]
      rfl

/-! ### Whole runs -/

theorem CallOk.step {event : Event Header Evidence}
    (admitted : SameBlock decided node event) (stepped : node.step app event = some after) :
    CallOk app start decided after := by
  cases event with
  | propose request => exact ok.propose admitted stepped
  | finalize request =>
    cases admitted
    exact ok.finalize stepped
  | advance => exact ok.advance stepped
  | goroutine => exact ok.goroutine_step stepped
  | commit => exact ok.commit stepped

end

section

variable (starts : Start start)

include starts

theorem Start.callOk : CallOk app start decided start := by
  cases starts with
  | resumed => exact ⟨⟨rfl, rfl, fun _ => rfl⟩, .free nofun⟩
  | genesis =>
    refine ⟨⟨rfl, rfl, nofun⟩, .free ?_⟩
    rintro _ ⟨⟩
    rfl

/-- The invariant of a height. -/
structure HeightOk (app : Application Header Evidence Other Result)
    (start : Node Header Evidence Other Result) (decided : BlockRequest Header Evidence)
    (node : Node Header Evidence Other Result) : Prop where
  call : CallOk app start decided node
  single : node.goroutines.length ≤ 1

theorem reached_heightOk (reached : Reaches (step app) (SameBlock decided) start node) :
    HeightOk app start decided node := by
  have initially : HeightOk app start decided start :=
    ⟨starts.callOk, by cases starts <;> exact Nat.zero_le 1⟩
  refine reached.invariant initially fun before event after ok admitted stepped => ?_
  exact ⟨ok.call.step admitted stepped, ok.call.single_step ok.single stepped⟩

/-! ### A node that receives no proposal -/

/-- `FinalizeBlock` and `Commit` of the decided block, each of them or not. -/
def alone (decided : BlockRequest Header Evidence) : List (Event Header Evidence) :=
  [.finalize decided, .advance, .commit]

/-- The node before it processes the decided block. -/
def Node.deciding (app : Application Header Evidence Other Result)
    (start : Node Header Evidence Other Result) (decided : BlockRequest Header Evidence) :
    Node Header Evidence Other Result :=
  { start with
    deliverState := some (freshBranch app start.base decided)
    phase := .deciding decided false }

section

variable (chain : app.chainIDOf decided.header = app.chainID)

include chain

theorem alone_begins : start.step app (.finalize decided) = some (start.deciding app decided) := by
  cases starts <;> exact if_neg (not_not.mpr chain)

omit chain in
omit starts in
theorem alone_processes :
    (start.deciding app decided).step app .advance = some
      (deliver app (start.deciding app decided) (freshBranch app start.base decided) decided) := rfl

/-- A node that received no proposal commits what processing the block once gives. -/
theorem alone_commits {result : Result} {store : Store}
    (isProcessed : processed app start.base decided = (.ok result, store)) :
    ∃ finalized committed,
      runEvents (step app) start ((alone decided).take 2) = some finalized ∧
      finalized.phase = .finalized (respond app result store) .deliver ∧
      finalized.cms = store ∧
      runEvents (step app) start (alone decided) = some committed ∧
      committed.phase = .committed (respond app result store) ∧ committed.cms = store := by
  have run : (mapStore Bytes Bytes).run (app.processBlock (freshBranch app start.base decided).ctx
      decided) (freshBranch app start.base decided).store = (.ok result, store) := isProcessed
  simp only [alone, List.take, runEvents, alone_begins starts chain, bind_some,
    alone_processes, deliver, run]
  exact ⟨_, _, rfl, rfl, rfl, rfl, rfl, rfl⟩

theorem alone_fails {error : String}
    (isError : (processed app start.base decided).1 = .error error) :
    ∃ failed, runEvents (step app) start ((alone decided).take 2) = some failed ∧
      failed.phase = .failed error ∧ failed.cms = start.cms := by
  have run : (mapStore Bytes Bytes).run (app.processBlock (freshBranch app start.base decided).ctx
      decided) (freshBranch app start.base decided).store =
      (.error error, (processed app start.base decided).2) := Prod.ext isError rfl
  simp only [alone, List.take, runEvents, alone_begins starts chain, bind_some,
    alone_processes, deliver, run]
  exact ⟨_, rfl, rfl, rfl⟩

end

/-- The answer of a node that received proposals is that of a node that received none. -/
theorem CallOk.as_alone (ok : CallOk app start decided node) (answered : node.phase.answer ≠ none) :
    ∃ events other, events <+: alone decided ∧
      runEvents (Node.step app) start events = some other ∧
      other.phase.answer = node.phase.answer ∧
      other.phase.isCommitted = node.phase.isCommitted ∧ other.cms = node.cms := by
  rw [CallOk] at ok
  cases phase : node.phase with
  | finalized response =>
    simp only [phase] at ok
    obtain ⟨⟨chain, isProcessed, isResponse⟩, _⟩ := ok
    obtain ⟨other, _, ran, isPhase, cms, _⟩ := alone_commits starts chain isProcessed
    refine ⟨_, other, take_prefix 2 _, ran, ?_, ?_, cms⟩
    · rw [isPhase, isResponse]
      rfl
    · rw [isPhase]
      rfl
  | committed response =>
    simp only [phase] at ok
    obtain ⟨⟨chain, isProcessed, isResponse⟩, _⟩ := ok
    obtain ⟨_, other, _, _, _, ran, isPhase, cms⟩ := alone_commits starts chain isProcessed
    refine ⟨_, other, prefix_refl _, ran, ?_, ?_, cms⟩
    · rw [isPhase, isResponse]
      rfl
    · rw [isPhase]
      rfl
  | failed =>
    simp only [phase] at ok
    obtain ⟨cms, ⟨otherChain, rfl⟩ | ⟨chain, isError⟩⟩ := ok
    · have began : start.step app (.finalize decided) =
          some { start with phase := .failed "unexpected ChainID" } := by
        cases starts <;> exact if_pos otherChain
      refine ⟨_, { start with phase := .failed "unexpected ChainID" }, take_prefix 1 _, ?_,
        rfl, rfl, cms.symm⟩
      simp only [alone, List.take, runEvents, began, bind_some]
    · obtain ⟨other, ran, isPhase, otherCms⟩ := alone_fails starts chain isError
      refine ⟨_, other, take_prefix 2 _, ran, ?_, ?_, otherCms.trans cms.symm⟩
      · rw [isPhase]
      · rw [isPhase]
  | _ => simp [phase, Phase.answer] at answered

end

/-- The signal is in the channel once the run has ended. -/
theorem CallOk.not_waiting {request : BlockRequest Header Evidence}
    (ok : CallOk app start decided node) (phase : node.phase = .awaiting request)
    (ended : ∀ goroutine ∈ node.goroutines, goroutine.progress = .ended) :
    (node.step app .advance).isSome := by
  rw [CallOk] at ok
  simp only [phase] at ok
  obtain ⟨_, _, _, _, started, slot⟩ := ok
  obtain ⟨info, isInfo⟩ := isSome_iff_exists.mp started
  rw [isInfo] at slot
  simp only [Node.step, Node.advance, phase, isInfo, slot.signalled ended]
  rfl

/-- Processing ahead is invisible: at every point of a height, with any proposals and any
scheduling, there is at most one run ahead, `FinalizeBlock` does not wait for one that has ended,
and what it answers and what is committed are those of a node that received no proposal. -/
theorem optimistic_processing_invisible (app : Application Header Evidence Other Result)
    (start : Node Header Evidence Other Result) (starts : Start start)
    (decided : BlockRequest Header Evidence) (node : Node Header Evidence Other Result)
    (reached : Reaches (step app) (SameBlock decided) start node) :
    node.goroutines.length ≤ 1 ∧
    (∀ request, node.phase = .awaiting request →
      (∀ goroutine ∈ node.goroutines, goroutine.progress = .ended) →
      (node.step app .advance).isSome) ∧
    (node.phase.answer ≠ none → ∃ events other, events <+: alone decided ∧
      runEvents (step app) start events = some other ∧
      other.phase.answer = node.phase.answer ∧
      other.phase.isCommitted = node.phase.isCommitted ∧ other.cms = node.cms) := by
  obtain ⟨ok, single⟩ := reached_heightOk starts reached
  exact ⟨single, fun _ => ok.not_waiting, ok.as_alone starts⟩

/-! ### An application with one parameter -/

/-- The gas limit of a block is the first byte under one key, and a block sets it to its hash. A
transaction asks for as much gas as its first byte says. -/
def toyApp : Application Unit Unit Unit Nat where
  chainID := "toy"
  chainIDOf _ := "toy"
  height _ := 1
  consensusParams store :=
    let limit := (((store [0]).bind List.head?).map UInt8.toNat).getD 100
    { block := some { maxGas := limit, maxGasWanted := limit }, other := () }
  txDecoder bytes :=
    some { msgs := [.other], feeGas := bytes.head?.map UInt8.toNat, gasEstimate := 0 }
  keepers :=
    { oracleVoteIsGasless := fun _ _ _ => .ok false
      evmAssociateIsGasless := fun _ _ _ => some false }
  upgradePlan _ := none
  processBlock _ request := .set [0] request.hash (.done request.txs.length)
  noResult := 0
  workingHash store := (store [0]).getD []

/-- A block of one transaction. -/
def toyBlock (hash gas : UInt8) : BlockRequest Unit Unit where
  hash := [hash]
  header := ()
  txs := [[gas]]
  evidence := ()

/-- The block is proposed and processed ahead, another one is rejected, and then the first one is
decided. -/
def toyRun : List (Event Unit Unit) :=
  [.propose (toyBlock 1 5), .advance, .advance, .advance, .advance, .goroutine 0,
    .propose (toyBlock 2 101), .advance, .advance, .goroutine 0, .goroutine 0, .goroutine 0,
    .finalize (toyBlock 1 5), .advance, .advance, .commit]

theorem optimistic_processing_invisible_toy : ∃ node : Node Unit Unit Unit Nat,
    runEvents (step toyApp) (resumed fun _ => none) toyRun = some node ∧
    node.phase.isCommitted = true ∧
    ∃ events other, events <+: alone (toyBlock 1 5) ∧
      runEvents (step toyApp) (resumed fun _ => none) events = some other ∧
      other.phase.answer = node.phase.answer ∧
      other.phase.isCommitted = node.phase.isCommitted ∧ other.cms = node.cms := by
  have reached := reaches_of_checked (fun node event => decide (SameBlock (toyBlock 1 5) node event))
    (fun _ _ => of_decide_eq_true) (show runEvents (fun node event =>
      if decide (SameBlock (toyBlock 1 5) node event) then step toyApp node event else none)
      (resumed fun _ => none) toyRun = some _ from rfl)
  exact ⟨_, rfl, rfl, (optimistic_processing_invisible toyApp _ (.resumed _) (toyBlock 1 5) _
    reached).2.2 nofun⟩

end SeiChain.App
