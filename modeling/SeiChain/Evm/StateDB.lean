/-
This file models the state database of one EVM transaction. Accounts live in the
stores of the EVM and bank modules, under a stack of cache layers with one layer
per snapshot. Everything that is gone after the transaction lives in memory:
logs, transient storage, the status of accounts, the refund counter, the access
list, storage overrides, the surplus and the code that was read. The memory is
undone through a journal: each change appends an entry that says how to revert
it, and a snapshot appends a watermark. The newest entry of the journal comes
first here.

The environment is fixed for a transaction. Gas, events, loggers and the replay
of Ethereum blocks are left out.
-/

import SeiChain.CacheKV.Snapshots
import SeiChain.Evm.Keeper

namespace SeiChain.Evm

open Std Library Bank CacheKV

structure Log where
  address : Address
  topics : List Hash
  data : Bytes
  index : Nat
  deriving DecidableEq, Repr

inductive AccountStatus where
  | created
  | deleted
  deriving DecidableEq, Repr

/-- The addresses with the index of their slots. No index stands for the index -1 of an address
without slots. -/
structure AccessList where
  addresses : ExtTreeMap Address (Option Nat) := ∅
  slots : List (ExtTreeSet Hash) := []

structure StorageOverride where
  committed : ExtTreeMap Hash Hash
  current : ExtTreeMap Hash Hash

structure TemporaryState where
  logs : List Log := []
  transientStates : ExtTreeMap Address (ExtTreeMap Hash Hash) := ∅
  transientAccounts : ExtTreeMap Address AccountStatus := ∅
  transientModuleStates : ExtTreeMap Bytes Bytes := ∅
  transientAccessLists : AccessList := {}
  storageOverrides : ExtTreeMap Address StorageOverride := ∅
  surplus : Int := 0

inductive JournalEntry where
  | accountStatusChange (account : Address) (prev : Option AccountStatus)
  | addLogChange
  | refundChange (prev : UInt64)
  | accessListAddAccountChange (address : Address)
  | accessListAddSlotChange (address : Address) (slot : Hash)
  | transientStorageChange (account : Address) (key prevalue : Hash)
  | storageOverrideChange (account : Address) (key prev : Hash)
  | storageOverrideRemove (account : Address) (prev : StorageOverride)
  | storageOverrideInstall (account : Address) (prev : Option StorageOverride)
  | surplusChange (delta : Int)
  /-- The memo entry before the change, if there was one. -/
  | codeCacheChange (account : Address) (prev : Option Bytes)
  | watermark (version : Nat)

/-- What does not change during a transaction. -/
structure Env where
  keccak : Bytes → Hash
  lockedCoins : AccAddress → Coins
  isTracing : Bool
  coinbaseAddress : AccAddress
  coinbaseEvmAddress : Address

/-- The code that is remembered, unless none is to be. -/
abbrev CodeCache := Option (ExtTreeMap Address Bytes)

/-- The contexts of the snapshots are the layers of the two stores. -/
structure DBImpl where
  evm : Stack Bytes Bytes
  bank : Stack BankKey Int
  tempState : TemporaryState := {}
  journal : List JournalEntry := []
  codeCache : CodeCache
  err : Option BankError := none

abbrev DBM := StateT DBImpl (Except Panic)

/-! ### Reverting journal entries -/

def boundedInt (i : Int) : Except Panic Int :=
  if SdkInt.bitLen i > SdkInt.maxBitLen then .error (.bank (.panic .intOverflow)) else .ok i

def gasRefundKey : Bytes := [0x01]

instance transAddress : TransOrd Address := inferInstance

instance transHash : TransOrd Hash := inferInstance

variable (list : AccessList)

namespace AccessList

def removeAddress (address : Address) : AccessList :=
  { list with addresses := list.addresses.erase address }

/-- Slots that became empty are removed from the list, and the address has none. -/
def removeSlot (address : Address) (slot : Hash) : AccessList :=
  match list.addresses[address]? with
  | some (some idx) =>
    match list.slots[idx]? with
    | some slots =>
      if (slots.erase slot).isEmpty then
        ⟨list.addresses.insert address none, list.slots.eraseIdx idx⟩
      else { list with slots := list.slots.set idx (slots.erase slot) }
    | none => list
  | _ => list

end AccessList

def withoutTransient (states : ExtTreeMap Address (ExtTreeMap Hash Hash)) (account : Address)
    (key : Hash) : ExtTreeMap Address (ExtTreeMap Hash Hash) :=
  match states[account]? with
  | none => states
  | some slots =>
    if (slots.erase key).isEmpty then states.erase account
    else states.insert account (slots.erase key)

def withTransient (states : ExtTreeMap Address (ExtTreeMap Hash Hash)) (account : Address)
    (key value : Hash) : ExtTreeMap Address (ExtTreeMap Hash Hash) :=
  states.insert account ((states[account]?.getD ∅).insert key value)

/-- Put back an entry of a map, or remove it if there was none. -/
def restore {K V : Type} [Ord K] [TransOrd K] (map : ExtTreeMap K V) (key : K) (prev : Option V) :
    ExtTreeMap K V :=
  match prev with
  | some value => map.insert key value
  | none => map.erase key

variable (state : TemporaryState)

def JournalEntry.revertTemporary : JournalEntry → Except Panic TemporaryState
  | accountStatusChange account prev =>
    .ok { state with transientAccounts := restore state.transientAccounts account prev }
  | addLogChange =>
    if state.logs.isEmpty then .error .indexOutOfRange
    else .ok { state with logs := state.logs.dropLast }
  | refundChange prev =>
    .ok { state with
      transientModuleStates :=
        state.transientModuleStates.insert gasRefundKey (bigEndian 8 prev.toNat) }
  | accessListAddAccountChange address =>
    .ok { state with transientAccessLists := state.transientAccessLists.removeAddress address }
  | accessListAddSlotChange address slot =>
    .ok { state with transientAccessLists := state.transientAccessLists.removeSlot address slot }
  | transientStorageChange account key prevalue =>
    .ok { state with
      transientStates :=
        if prevalue = 0 then withoutTransient state.transientStates account key
        else withTransient state.transientStates account key prevalue }
  | storageOverrideChange account key prev =>
    match state.storageOverrides[account]? with
    | some override =>
      .ok { state with
        storageOverrides := state.storageOverrides.insert account
          { override with current := override.current.insert key prev } }
    | none => .ok state
  | storageOverrideRemove account prev =>
    .ok { state with storageOverrides := state.storageOverrides.insert account prev }
  | storageOverrideInstall account prev =>
    .ok { state with storageOverrides := restore state.storageOverrides account prev }
  | surplusChange delta => do
    let surplus ← boundedInt (state.surplus - delta)
    .ok { state with surplus := surplus }
  | codeCacheChange .. => .ok state
  | watermark _ => .ok state

def JournalEntry.revertCodeCache (cache : CodeCache) :
    JournalEntry → CodeCache
  | codeCacheChange account prev => cache.map fun memo => restore memo account prev
  | _ => cache

def JournalEntry.revert (entry : JournalEntry) (db : DBImpl) : Except Panic DBImpl := do
  let tempState ← entry.revertTemporary db.tempState
  .ok { db with tempState := tempState, codeCache := entry.revertCodeCache db.codeCache }

def JournalEntry.isWatermark (version : Nat) : JournalEntry → Bool
  | watermark other => other = version
  | _ => false

/-! ### Snapshots -/

namespace DBImpl

/-- The number of contexts that were snapshotted. -/
def snapshotted (db : DBImpl) : Nat := db.evm.layers.length

def snapshot (db : DBImpl) : Nat × DBImpl :=
  (db.snapshotted,
    { db with
      evm := db.evm.snapshot
      bank := db.bank.snapshot
      journal := .watermark db.snapshotted :: db.journal })

/-- Revert the entries of the journal down to the watermark of a version. The journal that is
left is missing if there is no such watermark. -/
def revertJournal (version : Nat) :
    List JournalEntry → DBImpl → Except Panic (DBImpl × Option (List JournalEntry))
  | [], db => .ok (db, none)
  | entry :: rest, db => do
    let reverted ← entry.revert db
    if entry.isWatermark version then .ok (reverted, some rest)
    else revertJournal version rest reverted

def revertToSnapshot (rev : Nat) (db : DBImpl) : Except Panic DBImpl :=
  if rev < db.snapshotted then do
    let exposed :=
      { db with evm := db.evm.revertToSnapshot rev, bank := db.bank.revertToSnapshot rev }
    let (reverted, rest) ← revertJournal rev db.journal exposed
    .ok { reverted with journal := rest.getD reverted.journal }
  else .error .invalidRevision

end DBImpl

/-- `NewDBImpl`: the memo of code is for ordinary transactions only. -/
def newDBImpl (evm : ExtTreeMap Bytes Bytes) (bank : ExtTreeMap BankKey Int)
    (simulation evmEntryViaWasmdPrecompile : Bool) : DBImpl :=
  let db : DBImpl :=
    { evm := ⟨evm, []⟩
      bank := ⟨bank, []⟩
      codeCache := if !simulation && !evmEntryViaWasmdPrecompile then some ∅ else none }
  db.snapshot.2

/-! ### Access to the stores -/

def evmCall {A : Type} (program : EvmProgram A) : DBM A := fun db =>
  match stackStore.run program db.evm with
  | (.ok result, evm) => .ok (result, { db with evm := evm })
  | (.error cause, _) => .error cause

/-- A bank operation that reports no errors. -/
def bankRead {A : Type} (program : BankProgram A) : DBM A := fun db =>
  match stackStore.run program db.bank with
  | (.ok result, bank) => .ok (result, { db with bank := bank })
  | (.error cause, _) => .error (.bank cause)

/-- A bank operation whose error ends the caller and is kept for the end of the transaction. What
was written before the error stays. -/
def bankCall (program : BankProgram Unit) : DBM Bool := fun db =>
  match stackStore.run program db.bank with
  | (.ok (), bank) => .ok (true, { db with bank := bank })
  | (.error (.panic cause), _) => .error (.bank (.panic cause))
  | (.error cause, bank) => .ok (false, { db with bank := bank, err := some cause })

/-- Change the memory and append the entry that reverts the change. -/
def journaled (entry : JournalEntry) (change : TemporaryState → TemporaryState) : DBM Unit :=
  modify fun db => { db with tempState := change db.tempState, journal := entry :: db.journal }

/-! ### Accounts -/

variable (env : Env) (acc addr evmAddr : Address)

def markAccount (status : AccountStatus) : DBM Unit := do
  let prev := (← get).tempState.transientAccounts[acc]?
  journaled (.accountStatusChange acc prev) fun state =>
    { state with transientAccounts := state.transientAccounts.insert acc status }

def TemporaryState.created (state : TemporaryState) (acc : Address) : Bool :=
  state.transientAccounts[acc]? = some .created

def TemporaryState.hasSelfDestructed : Bool := state.transientAccounts[acc]? = some .deleted

def createContract : DBM Unit := markAccount acc .created

/-! ### Code -/

def journalCodeCacheMutation : DBM Unit := do
  match (← get).codeCache with
  | none => pure ()
  | some memo => journaled (.codeCacheChange addr memo[addr]?) id

def putCodeCache (code : Bytes) : DBM Unit :=
  modify fun db => { db with codeCache := db.codeCache.map fun memo => memo.insert addr code }

def deleteCodeCache : DBM Unit :=
  modify fun db => { db with codeCache := db.codeCache.map fun memo => memo.erase addr }

def getCodeOf : DBM Bytes := do
  match (← get).codeCache.bind fun memo => memo[addr]? with
  | some code => pure code
  | none => do
    let code ← evmCall (getCode addr)
    putCodeCache addr code
    pure code

def storeCode (code : Bytes) : DBM Unit := do
  evmCall (setCode env.keccak addr code)
  journalCodeCacheMutation addr
  putCodeCache addr code

def setCodeOf (code : Bytes) : DBM Bytes := do
  let oldCode ← getCodeOf addr
  storeCode env addr code
  pure oldCode

def clearAccountCodeAndNonce : DBM Unit := do
  evmCall (deleteCodeAndNonce acc)
  journalCodeCacheMutation acc
  deleteCodeCache acc

def removeStorageOverride : DBM Unit := do
  match (← get).tempState.storageOverrides[acc]? with
  | none => pure ()
  | some override =>
    journaled (.storageOverrideRemove acc override) fun state =>
      { state with storageOverrides := state.storageOverrides.erase acc }

def clearAccountState : DBM Unit := do
  removeStorageOverride acc
  if ← evmCall (deleteIfExists (codeHashKey acc)) then do
    evmCall (purgePrefix (stateKey acc))
    clearAccountCodeAndNonce acc
  else pure ()

/-- Clearing is too slow on historical data, so it is left out for tracing. -/
def clearUnlessTracing : DBM Unit := if env.isTracing then pure () else clearAccountState acc

def createAccount : DBM Unit := do
  clearUnlessTracing env acc
  markAccount acc .created

/-! ### Storage -/

def getStateOf (hash : Hash) : DBM Hash := do
  match (← get).tempState.storageOverrides[addr]? with
  | some override => pure (override.current[hash]?.getD 0)
  | none => evmCall (getState addr hash)

/-- The committed state is in the context of the first snapshot. -/
def getCommittedState (hash : Hash) : DBM Hash := fun db =>
  match db.tempState.storageOverrides[addr]? with
  | some override => .ok (override.committed[hash]?.getD 0, db)
  | none =>
    if db.snapshotted = 0 then .error .indexOutOfRange
    else do
      let state ← (stackStore.run (getState addr hash) ⟨db.evm.base, []⟩).1
      .ok (state, db)

def setOverrideState (override : StorageOverride) (addr : Address) (key val : Hash) : DBM Hash := do
  let old := override.current[key]?.getD 0
  journaled (.storageOverrideChange addr key old) fun state =>
    { state with
      storageOverrides := state.storageOverrides.insert addr
        { override with current := override.current.insert key val } }
  pure old

def setStateOf (key val : Hash) : DBM Hash := do
  match (← get).tempState.storageOverrides[addr]? with
  | some override => setOverrideState override addr key val
  | none => do
    let old ← getStateOf addr key
    evmCall (setState addr key val)
    pure old

def setStorage (states : ExtTreeMap Hash Hash) : DBM Unit := do
  let prev := (← get).tempState.storageOverrides[addr]?
  journaled (.storageOverrideInstall addr prev) fun state =>
    { state with storageOverrides := state.storageOverrides.insert addr ⟨states, states⟩ }

def TemporaryState.getTransientState (key : Hash) : Hash :=
  (state.transientStates[addr]?.bind fun slots => slots[key]?).getD 0

def setTransientState (key val : Hash) : DBM Unit := do
  let prev := (← get).tempState.getTransientState addr key
  journaled (.transientStorageChange addr key prev) fun state =>
    { state with transientStates := withTransient state.transientStates addr key val }

/-! ### Refunds and logs -/

def TemporaryState.getRefund : UInt64 :=
  match state.transientModuleStates[gasRefundKey]? with
  | some bytes => UInt64.ofNat (ofBigEndian bytes)
  | none => 0

def setRefund (prev refund : UInt64) : DBM Unit :=
  journaled (.refundChange prev) fun state =>
    { state with
      transientModuleStates :=
        state.transientModuleStates.insert gasRefundKey (bigEndian 8 refund.toNat) }

def addRefund (gas : UInt64) : DBM Unit := do
  let prev := (← get).tempState.getRefund
  setRefund prev (prev + gas)

def subRefund (gas : UInt64) : DBM Unit := do
  let refund := (← get).tempState.getRefund
  if gas > refund then throw (.refundBelowZero gas refund) else setRefund refund (refund - gas)

def addLog (log : Log) : DBM Unit :=
  journaled .addLogChange fun state =>
    { state with logs := state.logs ++ [{ log with index := state.logs.length }] }

/-! ### The access list -/

namespace AccessList

def addAddress : AccessList :=
  { list with addresses := list.addresses.insert addr none }

/-- The first slot of an address. -/
def addSlots (slot : Hash) : AccessList :=
  ⟨list.addresses.insert addr (some list.slots.length), list.slots ++ [{slot}]⟩

def addSlot (idx : Nat) (slots : ExtTreeSet Hash) (slot : Hash) : AccessList :=
  { list with slots := list.slots.set idx (slots.insert slot) }

def slotInAccessList (slot : Hash) : Except Panic (Bool × Bool) :=
  match list.addresses[addr]? with
  | none => .ok (false, false)
  | some none => .ok (true, false)
  | some (some idx) =>
    match list.slots[idx]? with
    | none => .error .indexOutOfRange
    | some slots => .ok (true, slots.contains slot)

end AccessList

def journaledAccess (entry : JournalEntry) (change : AccessList → AccessList) : DBM Unit :=
  journaled entry fun state =>
    { state with transientAccessLists := change state.transientAccessLists }

def addAddressToAccessList : DBM Unit := do
  match (← get).tempState.transientAccessLists.addresses[addr]? with
  | some _ => pure ()
  | none => journaledAccess (.accessListAddAccountChange addr) fun list => list.addAddress addr

def addFirstSlot (slot : Hash) : DBM Unit :=
  journaledAccess (.accessListAddSlotChange addr slot) fun list => list.addSlots addr slot

def addSlotToAccessList (slot : Hash) : DBM Unit := do
  let list := (← get).tempState.transientAccessLists
  match list.addresses[addr]? with
  | none => do
    addAddressToAccessList addr
    addFirstSlot addr slot
  | some none => addFirstSlot addr slot
  | some (some idx) =>
    match list.slots[idx]? with
    | none => throw .indexOutOfRange
    | some slots =>
      if slots.contains slot then pure ()
      else journaledAccess (.accessListAddSlotChange addr slot) fun list =>
        list.addSlot idx slots slot

/-! ### Balances -/

/-- Fees are collected under a temporary address of the transaction. -/
def seiAddressOf : DBM AccAddress :=
  if env.coinbaseEvmAddress = evmAddr then pure env.coinbaseAddress
  else evmCall (getSeiAddressOrDefault evmAddr)

/-- A negative number becomes its complement. -/
def uint256OfBig (i : Int) : Except Panic (BitVec 256) :=
  if i.natAbs ≥ 2 ^ 256 then .error .balanceOverflow else .ok (BitVec.ofInt 256 i)

def getBalanceOf : DBM (BitVec 256) := do
  let seiAddr ← seiAddressOf env evmAddr
  let balance ← bankRead (getSpendableBalance env.lockedCoins seiAddr)
  uint256OfBig balance

def addSurplus (delta : Int) : DBM Unit := do
  let surplus ← boundedInt ((← get).tempState.surplus + delta)
  journaled (.surplusChange delta) fun state => { state with surplus := surplus }

/-- The coins of the base denomination, as the bank expects them. -/
def useiCoins (usei : Int) : BankProgram Coins := do
  let coin ← newCoin baseDenom usei
  newCoins coin

def debit (addr : AccAddress) (usei : Int) : BankProgram Unit := do
  let coins ← useiCoins usei
  BaseSendKeeper.subUnlockedCoins ⟨env.lockedCoins, fun _ => true⟩ addr coins true

def credit (keeper : BaseSendKeeper) (addr : AccAddress) (usei : Int) : BankProgram Unit := do
  let coins ← useiCoins usei
  keeper.addCoins addr coins true

/-- An amount is never negative, so the branch for negative amounts is left out. -/
def subBalance (amt : BitVec 256) : DBM Unit :=
  if amt = 0 then pure ()
  else do
    let addr ← seiAddressOf env evmAddr
    if ← bankCall (debit env addr (splitUseiWeiAmount amt.toNat).1) then
      if ← bankCall (BaseSendKeeper.subWei addr (splitUseiWeiAmount amt.toNat).2) then
        addSurplus amt.toNat
      else pure ()
    else pure ()

/-- The bank asks the EVM keeper whether the address may receive funds. -/
def addBalance (amt : BitVec 256) : DBM Unit :=
  if amt = 0 then pure ()
  else do
    let addr ← seiAddressOf env evmAddr
    let receives ← evmCall (canAddressReceive addr)
    let keeper : BaseSendKeeper := ⟨env.lockedCoins, fun _ => receives⟩
    if ← bankCall (credit keeper addr (splitUseiWeiAmount amt.toNat).1) then
      if ← bankCall (keeper.addWei addr (splitUseiWeiAmount amt.toNat).2) then
        addSurplus (-amt.toNat)
      else pure ()
    else pure ()

def disassociate : DBM Unit := do
  match ← evmCall (getSeiAddress acc) with
  | some seiAddr => evmCall (deleteAddressMapping seiAddr acc)
  | none => pure ()

def selfDestruct : DBM (BitVec 256) := do
  disassociate acc
  let balance ← getBalanceOf env acc
  subBalance env acc balance
  markAccount acc .deleted
  pure balance

def selfDestruct6780 : DBM (BitVec 256 × Bool) := do
  if (← get).tempState.created acc then do
    let balance ← selfDestruct env acc
    pure (balance, true)
  else pure (0, false)

/-! ### Operations -/

inductive Op where
  | setState (addr : Address) (key val : Hash)
  | setTransientState (addr : Address) (key val : Hash)
  | setCode (addr : Address) (code : Bytes)
  | setNonce (addr : Address) (nonce : UInt64)
  | addBalance (addr : Address) (amt : BitVec 256)
  | subBalance (addr : Address) (amt : BitVec 256)
  | addRefund (gas : UInt64)
  | subRefund (gas : UInt64)
  | addLog (log : Log)
  | addAddressToAccessList (addr : Address)
  | addSlotToAccessList (addr : Address) (slot : Hash)
  | createAccount (acc : Address)
  | createContract (acc : Address)
  | selfDestruct (acc : Address)
  | selfDestruct6780 (acc : Address)
  | setStorage (addr : Address) (states : ExtTreeMap Hash Hash)
  | getCode (addr : Address)
  | snapshot
  | revertToSnapshot (rev : Nat)

/-- What an operation returns. -/
inductive Answer where
  | nothing
  | hash (hash : Hash)
  | code (code : Bytes)
  | amount (amount : BitVec 256)
  | destructed (amount : BitVec 256) (destroyed : Bool)
  | revision (rev : Nat)
  deriving DecidableEq, Repr

def perform : Op → DBM Answer
  | .setState addr key val => .hash <$> setStateOf addr key val
  | .setTransientState addr key val => (fun _ => .nothing) <$> setTransientState addr key val
  | .setCode addr code => .code <$> setCodeOf env addr code
  | .setNonce addr nonce => (fun _ => .nothing) <$> evmCall (setNonce addr nonce)
  | .addBalance addr amt => (fun _ => .nothing) <$> addBalance env addr amt
  | .subBalance addr amt => (fun _ => .nothing) <$> subBalance env addr amt
  | .addRefund gas => (fun _ => .nothing) <$> addRefund gas
  | .subRefund gas => (fun _ => .nothing) <$> subRefund gas
  | .addLog log => (fun _ => .nothing) <$> addLog log
  | .addAddressToAccessList addr => (fun _ => .nothing) <$> addAddressToAccessList addr
  | .addSlotToAccessList addr slot => (fun _ => .nothing) <$> addSlotToAccessList addr slot
  | .createAccount acc => (fun _ => .nothing) <$> createAccount env acc
  | .createContract acc => (fun _ => .nothing) <$> createContract acc
  | .selfDestruct acc => .amount <$> selfDestruct env acc
  | .selfDestruct6780 acc =>
    (fun (amount, destroyed) => .destructed amount destroyed) <$> selfDestruct6780 env acc
  | .setStorage addr states => (fun _ => .nothing) <$> setStorage addr states
  | .getCode addr => .code <$> getCodeOf addr
  | .snapshot => fun db => .ok (.revision db.snapshot.1, db.snapshot.2)
  | .revertToSnapshot rev => fun db => do
    let reverted ← db.revertToSnapshot rev
    .ok (.nothing, reverted)

def performAll (env : Env) : List Op → DBM (List Answer)
  | [] => pure []
  | op :: rest => do
    let answer ← perform env op
    let answers ← performAll env rest
    pure (answer :: answers)

/-! ### Observables -/

structure Observation where
  state : Address → Hash → Except Panic Hash
  committedState : Address → Hash → Except Panic Hash
  transientState : Address → Hash → Hash
  code : Address → Except Panic Bytes
  codeSize : Address → Except Panic UInt64
  nonce : Address → Except Panic UInt64
  balance : Address → Except Panic (BitVec 256)
  refund : UInt64
  logs : List Log
  addressInAccessList : Address → Bool
  slotInAccessList : Address → Hash → Except Panic (Bool × Bool)
  created : Address → Bool
  hasSelfDestructed : Address → Bool
  /-- The committed and the current storage of an account with an override. -/
  storageOverride : Address → Option ((Hash → Hash) × (Hash → Hash))
  surplus : Int

def StorageOverride.contents (override : StorageOverride) : (Hash → Hash) × (Hash → Hash) :=
  (fun hash => override.committed[hash]?.getD 0, fun hash => override.current[hash]?.getD 0)

/-- What a getter returns. -/
def answerOf {S A : Type} (getter : StateT S (Except Panic) A) (state : S) : Except Panic A := do
  let (answer, _) ← getter state
  .ok answer

def DBImpl.observe (db : DBImpl) : Observation where
  state addr hash := answerOf (getStateOf addr hash) db
  committedState addr hash := answerOf (getCommittedState addr hash) db
  transientState addr key := db.tempState.getTransientState addr key
  code addr := answerOf (getCodeOf addr) db
  codeSize addr := answerOf (evmCall (getCodeSize addr)) db
  nonce addr := answerOf (evmCall (getNonce addr)) db
  balance addr := answerOf (getBalanceOf env addr) db
  refund := db.tempState.getRefund
  logs := db.tempState.logs
  addressInAccessList addr := db.tempState.transientAccessLists.addresses.contains addr
  slotInAccessList addr slot := db.tempState.transientAccessLists.slotInAccessList addr slot
  created acc := db.tempState.created acc
  hasSelfDestructed acc := db.tempState.hasSelfDestructed acc
  storageOverride addr := db.tempState.storageOverrides[addr]?.map StorageOverride.contents
  surplus := db.tempState.surplus

end SeiChain.Evm
