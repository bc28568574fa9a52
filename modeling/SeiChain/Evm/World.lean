/-
This file says what the state database is for, without its journal, its cache
layers and its memo of code. A world holds the maps that a transaction sees. A
snapshot keeps a copy of the whole world, and a revert puts the copy back. The
operations are those of the state database, on the world.
-/

import SeiChain.Evm.StateDB
import SeiChain.Library.Simulation

namespace SeiChain.Evm

open Library Bank List Function

/-- What a transaction keeps in memory. -/
structure Memory where
  logs : List Log := []
  transientState : Address → Hash → Hash := fun _ _ => 0
  accountStatus : Address → Option AccountStatus := fun _ => none
  refund : UInt64 := 0
  accessList : AccessList := {}
  storageOverride : Address → Option ((Hash → Hash) × (Hash → Hash)) := fun _ => none
  surplus : Int := 0

structure World where
  evm : EvmStore
  /-- What was there at the first snapshot, if there is one. -/
  committed : Option EvmStore := none
  bank : BankStore
  /-- The bank has refused a call. -/
  refused : Bool := false
  memory : Memory := {}

abbrev Model := StateT World (Except Panic)

variable (env : Env)

namespace Model

def evmCall {A : Type} (program : EvmProgram A) : Model A := fun world =>
  match (mapStore Bytes Bytes).run program world.evm with
  | (.ok result, evm) => .ok (result, { world with evm := evm })
  | (.error cause, _) => .error cause

def bankRead {A : Type} (program : BankProgram A) : Model A := fun world =>
  match (mapStore BankKey Int).run program world.bank with
  | (.ok result, bank) => .ok (result, { world with bank := bank })
  | (.error cause, _) => .error (.bank cause)

def bankCall (program : BankProgram Unit) : Model Bool := fun world =>
  match (mapStore BankKey Int).run program world.bank with
  | (.ok (), bank) => .ok (true, { world with bank := bank })
  | (.error (.panic cause), _) => .error (.bank (.panic cause))
  | (.error _, bank) => .ok (false, { world with bank := bank, refused := true })

def remember (change : Memory → Memory) : Model Unit :=
  modify fun world => { world with memory := change world.memory }

/-! ### Accounts, code and storage -/

variable (acc : Address)

def markAccount (status : AccountStatus) : Model Unit :=
  remember fun memory =>
    { memory with accountStatus := update memory.accountStatus acc (some status) }

variable (addr : Address)

def setCodeOf (code : Bytes) : Model Bytes := do
  let oldCode ← evmCall (getCode addr)
  evmCall (setCode env.keccak addr code)
  pure oldCode

def setStorageOverride (override : Option ((Hash → Hash) × (Hash → Hash))) : Model Unit :=
  remember fun memory =>
    { memory with storageOverride := update memory.storageOverride addr override }

def clearAccountState : Model Unit := do
  setStorageOverride acc none
  if ← evmCall (deleteIfExists (codeHashKey acc)) then do
    evmCall (purgePrefix (stateKey acc))
    evmCall (deleteCodeAndNonce acc)
  else pure ()

def clearUnlessTracing : Model Unit := if env.isTracing then pure () else clearAccountState acc

def createAccount : Model Unit := do
  clearUnlessTracing env acc
  markAccount acc .created

def getStateOf (hash : Hash) : Model Hash := do
  match (← get).memory.storageOverride addr with
  | some (_, current) => pure (current hash)
  | none => evmCall (getState addr hash)

def getCommittedState (hash : Hash) : Model Hash := fun world =>
  match world.memory.storageOverride addr with
  | some (committed, _) => .ok (committed hash, world)
  | none =>
    match world.committed with
    | none => .error .indexOutOfRange
    | some committed => do
      let state ← ((mapStore Bytes Bytes).run (getState addr hash) committed).1
      .ok (state, world)

def setStateOf (key val : Hash) : Model Hash := do
  match (← get).memory.storageOverride addr with
  | some (committed, current) => do
    setStorageOverride addr (some (committed, update current key val))
    pure (current key)
  | none => do
    let old ← getStateOf addr key
    evmCall (setState addr key val)
    pure old

def setTransientState (key val : Hash) : Model Unit :=
  remember fun memory =>
    { memory with
      transientState := update memory.transientState addr
        (update (memory.transientState addr) key val) }

/-! ### Refunds, logs and the access list -/

def setRefund (refund : UInt64) : Model Unit := remember fun memory =>
    { memory with refund := refund }

def addRefund (gas : UInt64) : Model Unit := do
  setRefund ((← get).memory.refund + gas)

def subRefund (gas : UInt64) : Model Unit := do
  let refund := (← get).memory.refund
  if gas > refund then throw (.refundBelowZero gas refund) else setRefund (refund - gas)

def addLog (log : Log) : Model Unit :=
  remember fun memory =>
    { memory with logs := memory.logs ++ [{ log with index := memory.logs.length }] }

def changeAccess (change : AccessList → AccessList) : Model Unit :=
  remember fun memory => { memory with accessList := change memory.accessList }

def addAddressToAccessList : Model Unit := do
  match (← get).memory.accessList.addresses[addr]? with
  | some _ => pure ()
  | none => changeAccess fun list => list.addAddress addr

def addSlotToAccessList (slot : Hash) : Model Unit := do
  let list := (← get).memory.accessList
  match list.addresses[addr]? with
  | none => do
    addAddressToAccessList addr
    changeAccess fun list => list.addSlots addr slot
  | some none => changeAccess fun list => list.addSlots addr slot
  | some (some idx) =>
    match list.slots[idx]? with
    | none => throw .indexOutOfRange
    | some slots =>
      if slots.contains slot then pure () else changeAccess fun list => list.addSlot idx slots slot

/-! ### Balances -/

def seiAddressOf (evmAddr : Address) : Model AccAddress :=
  if env.coinbaseEvmAddress = evmAddr then pure env.coinbaseAddress
  else evmCall (getSeiAddressOrDefault evmAddr)

def getBalanceOf (evmAddr : Address) : Model (BitVec 256) := do
  let seiAddr ← seiAddressOf env evmAddr
  let balance ← bankRead (getSpendableBalance env.lockedCoins seiAddr)
  uint256OfBig balance

def addSurplus (delta : Int) : Model Unit := do
  let surplus ← boundedInt ((← get).memory.surplus + delta)
  remember fun memory => { memory with surplus := surplus }

def subBalance (evmAddr : Address) (amt : BitVec 256) : Model Unit :=
  if amt = 0 then pure ()
  else do
    let addr ← seiAddressOf env evmAddr
    if ← bankCall (debit env addr (splitUseiWeiAmount amt.toNat).1) then
      if ← bankCall (BaseSendKeeper.subWei addr (splitUseiWeiAmount amt.toNat).2) then
        addSurplus amt.toNat
      else pure ()
    else pure ()

def addBalance (evmAddr : Address) (amt : BitVec 256) : Model Unit :=
  if amt = 0 then pure ()
  else do
    let addr ← seiAddressOf env evmAddr
    let receives ← evmCall (canAddressReceive addr)
    let keeper : BaseSendKeeper := ⟨env.lockedCoins, fun _ => receives⟩
    if ← bankCall (credit keeper addr (splitUseiWeiAmount amt.toNat).1) then
      if ← bankCall (keeper.addWei addr (splitUseiWeiAmount amt.toNat).2) then
        addSurplus (-amt.toNat)
      else pure ()
    else pure ()

def disassociate : Model Unit := do
  match ← evmCall (getSeiAddress acc) with
  | some seiAddr => evmCall (deleteAddressMapping seiAddr acc)
  | none => pure ()

def selfDestruct : Model (BitVec 256) := do
  disassociate acc
  let balance ← getBalanceOf env acc
  subBalance env acc balance
  markAccount acc .deleted
  pure balance

def selfDestruct6780 : Model (BitVec 256 × Bool) := do
  if (← get).memory.accountStatus acc = some .created then do
    let balance ← selfDestruct env acc
    pure (balance, true)
  else pure (0, false)

/-- The operations that do not concern snapshots. -/
def perform : Op → Model Answer
  | .setState addr key val => .hash <$> setStateOf addr key val
  | .setTransientState addr key val => (fun _ => .nothing) <$> setTransientState addr key val
  | .setCode addr code => .code <$> setCodeOf env addr code
  | .setNonce addr nonce => (fun _ => .nothing) <$> evmCall (setNonce addr nonce)
  | .addBalance addr amt => (fun _ => .nothing) <$> addBalance env addr amt
  | .subBalance addr amt => (fun _ => .nothing) <$> subBalance env addr amt
  | .addRefund gas => (fun _ => .nothing) <$> addRefund gas
  | .subRefund gas => (fun _ => .nothing) <$> subRefund gas
  | .addLog log => (fun _ => .nothing) <$> addLog log
  | .addAddressToAccessList addr => (fun _ => .nothing) <$> addAddressToAccessList addr
  | .addSlotToAccessList addr slot => (fun _ => .nothing) <$> addSlotToAccessList addr slot
  | .createAccount acc => (fun _ => .nothing) <$> createAccount env acc
  | .createContract acc => (fun _ => .nothing) <$> markAccount acc .created
  | .selfDestruct acc => .amount <$> selfDestruct env acc
  | .selfDestruct6780 acc =>
    (fun (amount, destroyed) => .destructed amount destroyed) <$> selfDestruct6780 env acc
  | .setStorage addr states => (fun _ => .nothing) <$>
      setStorageOverride addr (some (StorageOverride.contents ⟨states, states⟩))
  | .getCode addr => .code <$> evmCall (getCode addr)
  | .snapshot => pure .nothing
  | .revertToSnapshot _ => pure .nothing

end Model

def World.observe (world : World) : Observation where
  state addr hash := answerOf (Model.getStateOf addr hash) world
  committedState addr hash := answerOf (Model.getCommittedState addr hash) world
  transientState addr key := world.memory.transientState addr key
  code addr := answerOf (Model.evmCall (getCode addr)) world
  codeSize addr := answerOf (Model.evmCall (getCodeSize addr)) world
  nonce addr := answerOf (Model.evmCall (getNonce addr)) world
  balance addr := answerOf (Model.getBalanceOf env addr) world
  refund := world.memory.refund
  logs := world.memory.logs
  addressInAccessList addr := world.memory.accessList.addresses.contains addr
  slotInAccessList addr slot := world.memory.accessList.slotInAccessList addr slot
  created acc := world.memory.accountStatus acc = some .created
  hasSelfDestructed acc := world.memory.accountStatus acc = some .deleted
  storageOverride addr := world.memory.storageOverride addr
  surplus := world.memory.surplus

/-! ### Histories -/

/-- The world as it is, and the copies that the snapshots made, the newest first. -/
structure History where
  now : World
  saved : List World

namespace History

/-- Without an older snapshot, what was written has gone to the stores themselves. -/
def snapshot (history : History) : History where
  now := { history.now with committed := some (history.now.committed.getD history.now.evm) }
  saved := history.now :: history.saved

/-- The history of a new state database, which takes a first snapshot. -/
def start (evm : EvmStore) (bank : BankStore) : History :=
  snapshot ⟨{ evm := evm, bank := bank }, []⟩

/-- Put back the copy of a snapshot, and forget the newer ones. -/
def revertToSnapshot (rev : Nat) (history : History) : Except Panic History :=
  match history.saved.drop (history.saved.length - rev - 1) with
  | world :: older => if rev < history.saved.length then .ok ⟨world, older⟩ else .error .invalidRevision
  | [] => .error .invalidRevision

def perform (env : Env) (op : Op) : StateT History (Except Panic) Answer := fun history =>
  match op with
  | .snapshot => .ok (.revision history.saved.length, history.snapshot)
  | .revertToSnapshot rev => do
    let reverted ← history.revertToSnapshot rev
    .ok (.nothing, reverted)
  | op => do
    let (answer, now) ← Model.perform env op history.now
    .ok (answer, { history with now := now })

theorem perform_of_ne {op : Op} (noSnapshot : op ≠ .snapshot)
    (noRevert : ∀ rev, op ≠ .revertToSnapshot rev) (history : History) :
    perform env op history = (do
      let (answer, now) ← Model.perform env op history.now
      .ok (answer, { history with now := now })) := by
  cases op with
  | snapshot => exact absurd rfl noSnapshot
  | revertToSnapshot rev => exact absurd rfl (noRevert rev)
  | _ => rfl

def performAll (env : Env) : List Op → StateT History (Except Panic) (List Answer)
  | [] => pure []
  | op :: rest => do
    let answer ← perform env op
    let answers ← performAll env rest
    pure (answer :: answers)

/-- A revert to a snapshot while it is there. -/
theorem revertToSnapshot_append (now world : World) (newer older : List World) :
    revertToSnapshot older.length ⟨now, newer ++ world :: older⟩ = .ok ⟨world, older⟩ := by
  unfold revertToSnapshot
  rw [length_append, length_cons,
    show newer.length + (older.length + 1) - older.length - 1 = newer.length by omega,
    drop_left]
  exact if_pos (by omega)

end History

/-- The operation does not revert to the snapshot `rev` or an older one. -/
def Op.Above (rev : Nat) : Op → Prop
  | .revertToSnapshot other => rev < other
  | _ => True

namespace History

variable {history after : History} {answer : Answer} {newer kept : List World}

/-- Operations above a snapshot keep its copy and those of older snapshots. -/
theorem saved_perform {op : Op} (saved : history.saved = newer ++ kept)
    (above : op.Above (kept.length - 1)) (ran : perform env op history = .ok (answer, after)) :
    ∃ newer', after.saved = newer' ++ kept := by
  by_cases isSnapshot : op = .snapshot
  · subst isSnapshot
    cases ran
    exact ⟨history.now :: newer, congrArg (List.cons history.now) saved⟩
  by_cases isRevert : ∃ rev, op = .revertToSnapshot rev
  · obtain ⟨rev, rfl⟩ := isRevert
    change (history.revertToSnapshot rev >>= _) = _ at ran
    unfold revertToSnapshot at ran
    split at ran
    case h_2 => cases ran
    case h_1 world older dropped =>
      split at ran
      case isFalse => cases ran
      case isTrue isRevision =>
        cases ran
        rw [saved, length_append] at dropped isRevision
        have inNewer : newer.length + kept.length - rev - 1 + 1 ≤ newer.length := by
          have above : kept.length - 1 < rev := above
          omega
        refine ⟨newer.drop (newer.length + kept.length - rev - 1 + 1), ?_⟩
        have tail := congrArg List.tail dropped
        rw [tail_drop, tail_cons] at tail
        rw [← tail, drop_append_of_le_length inNewer]
  · rw [perform_of_ne env isSnapshot fun rev same => isRevert ⟨rev, same⟩] at ran
    obtain ⟨outcome, -, ran⟩ := exceptBind_eq_ok.mp ran
    cases ran
    exact ⟨newer, saved⟩

theorem saved_performAll {ops : List Op} {answers : List Answer}
    (saved : history.saved = newer ++ kept) (above : ∀ op ∈ ops, op.Above (kept.length - 1))
    (ran : performAll env ops history = .ok (answers, after)) :
    ∃ newer', after.saved = newer' ++ kept := by
  induction ops generalizing history newer answers with
  | nil =>
    cases ran
    exact ⟨newer, saved⟩
  | cons op rest ih =>
    obtain ⟨here, later⟩ := forall_mem_cons.mp above
    obtain ⟨⟨answer, middle⟩, stepped, ran⟩ := exceptBind_eq_ok.mp ran
    obtain ⟨newer', savedMiddle⟩ := saved_perform env saved here stepped
    obtain ⟨outcome, steppedRest, ran⟩ := exceptBind_eq_ok.mp ran
    cases ran
    exact ih savedMiddle later steppedRest

end History

end SeiChain.Evm
