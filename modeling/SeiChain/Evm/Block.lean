/-
This file models a block of EVM transactions. A transaction runs two state
databases: one of the ante handler, which charges the fees, and one of the
message. Each is finalized into the stores of the block with a surplus, or it is
discarded. The surpluses are recorded in transient stores, and at the end of the
block they are credited to the EVM module, after the fees of every transaction
have been collected from its temporary address.

A transaction is given by what it does. The nonce, the receipts and the fee
market are left out, as are the association of addresses in the ante handler
and the replay of Ethereum blocks. A simulation is never finalized.
-/

import SeiChain.Evm.StateDB

namespace SeiChain.Evm

open Std Library Bank CacheKV

/-! ### Finalizing a state database -/

def whenDestructed (acc : Address) (program : DBM Unit) : DBM Unit := do
  if (← get).tempState.hasSelfDestructed acc then program else pure ()

/-- What was sent to an account after its destruction goes to the fee collector. -/
def handleResidual (env : Env) (acc : Address) : DBM Unit := do
  let residual ← getBalanceOf env acc
  if residual = 0 then pure ()
  else do
    subBalance env acc residual
    addBalance env env.coinbaseEvmAddress residual

/-- The accounts come in the order in which the map of their statuses is walked. -/
def handleResidualFundsInDestructedAccounts (env : Env) : List Address → DBM Unit
  | [] => pure ()
  | acc :: rest => do
    whenDestructed acc (handleResidual env acc)
    handleResidualFundsInDestructedAccounts env rest

def clearAccountStateIfDestructed : List Address → DBM Unit
  | [] => pure ()
  | acc :: rest => do
    whenDestructed acc (clearAccountState acc)
    clearAccountStateIfDestructed rest

/-- Every layer is written down into the stores of the transaction. -/
def flushCtxs : DBM Unit := modify fun db => { db with evm := db.evm.write, bank := db.bank.write }

/-- The events are written to the context of the first snapshot, so there has to be one. -/
def flushEvents : DBM Unit := fun db =>
  if db.snapshotted = 0 then .error .indexOutOfRange else .ok ((), db)

/-- The two walks over the map of statuses have their own orders. -/
def finalize (env : Env) (residualOrder clearOrder : List Address) : DBM
    (Except BankError Int) := do
  match (← get).err with
  | some error => pure (.error error)
  | none => do
    handleResidualFundsInDestructedAccounts env residualOrder
    clearAccountStateIfDestructed clearOrder
    flushCtxs
    flushEvents
    pure (.ok (← get).tempState.surplus)

/-! ### Transactions -/

/-- What is done through one state database. -/
structure Execution where
  ops : List Op
  residualOrder : List Address
  clearOrder : List Address

structure EvmTx where
  hash : Hash
  /-- The ante handler accepts the signature, the nonce and the fees of the transaction. -/
  admitted : Bool
  ante : Execution
  viaWasmd : Bool
  message : Execution
  /-- The message server can write the receipt. -/
  receiptWritten : Bool
  /-- The log of the result if the transaction fails. -/
  log : String

structure DeferredInfo where
  txIndex : Nat
  txHash : Hash
  /-- Missing for a transaction that failed. -/
  surplus : Option Int
  error : String

/-- The stores of a block, with the transient ones of the EVM module. -/
structure BlockState where
  evm : ExtTreeMap Bytes Bytes
  bank : ExtTreeMap BankKey Int
  anteSurplus : ExtTreeMap Hash Int := ∅
  deferredInfo : ExtTreeMap Nat DeferredInfo := ∅

/-- What does not change during a block. -/
structure BlockEnv where
  keccak : Bytes → Hash
  lockedCoins : AccAddress → Coins
  isTracing : Bool
  feeCollectorEvmAddress : Address
  feeCollector : AccAddress
  evmModule : AccAddress

/-- `evm_coinbase` -/
def coinbaseAddressPrefix : Bytes := [101, 118, 109, 95, 99, 111, 105, 110, 98, 97, 115, 101]

def getCoinbaseAddress (txIdx : Nat) : AccAddress := coinbaseAddressPrefix ++ bigEndian 8 txIdx

variable (config : BlockEnv)

def BlockEnv.txEnv (txIdx : Nat) : Env where
  keccak := config.keccak
  lockedCoins := config.lockedCoins
  isTracing := config.isTracing
  coinbaseAddress := getCoinbaseAddress txIdx
  coinbaseEvmAddress := config.feeCollectorEvmAddress

/-- Run and finalize a state database. Nothing is left of one that panics or has an error. -/
def execute (env : Env) (execution : Execution) (viaWasmd : Bool) (evm : ExtTreeMap Bytes Bytes)
    (bank : ExtTreeMap BankKey Int) :
    Option (ExtTreeMap Bytes Bytes × ExtTreeMap BankKey Int × Int) :=
  match (do
      let _ ← performAll env execution.ops
      finalize env execution.residualOrder execution.clearOrder : DBM _)
      (newDBImpl evm bank false viaWasmd) with
  | .ok (.ok surplus, db) => some (db.evm.base, db.bank.base, surplus)
  | _ => none

/-- The surplus of a state database that ran inside of the message. -/
def extraSurplus (deferredInfo : ExtTreeMap Nat DeferredInfo) (viaWasmd : Bool) (txIdx : Nat) :
    Int :=
  if viaWasmd then (deferredInfo[txIdx]?.bind DeferredInfo.surplus).getD 0 else 0

variable (state : BlockState)

def appendToEvmTxDeferredInfo (txIdx : Nat) (txHash : Hash) (surplus : Int) : BlockState :=
  { state with
    deferredInfo := state.deferredInfo.insert txIdx ⟨txIdx % 2 ^ 32, txHash, some surplus, ""⟩ }

def runMessage (txIdx : Nat) (tx : EvmTx) (state : BlockState) : BlockState :=
  match execute (config.txEnv txIdx) tx.message tx.viaWasmd state.evm state.bank with
  | none => state
  | some (evm, bank, surplus) =>
    if tx.receiptWritten then
      match boundedInt (surplus + extraSurplus state.deferredInfo tx.viaWasmd txIdx) with
      | .error _ => state
      | .ok surplus =>
        appendToEvmTxDeferredInfo { state with evm := evm, bank := bank } txIdx tx.hash surplus
    else state

def addAnteSurplus (txHash : Hash) (surplus : Int) : BlockState :=
  { state with anteSurplus := state.anteSurplus.insert txHash surplus }

/-- The fees stay charged if the message fails. -/
def deliverTx (txIdx : Nat) (tx : EvmTx) (state : BlockState) : BlockState :=
  if tx.admitted then
    match execute (config.txEnv txIdx) tx.ante false state.evm state.bank with
    | none => state
    | some (evm, bank, surplus) =>
      runMessage config txIdx tx
        (addAnteSurplus { state with evm := evm, bank := bank } tx.hash surplus)
  else state

def deliverTxs (config : BlockEnv) : Nat → List EvmTx → BlockState → BlockState
  | _, [], state => state
  | txIdx, tx :: rest, state => deliverTxs config (txIdx + 1) rest (deliverTx config txIdx tx state)

/-! ### The end of the block -/

inductive EndBlockPanic where
  | bank (error : BankError)
  | nilSurplus
  deriving DecidableEq, Repr

structure EndBlockState where
  bank : Stack BankKey Int
  /-- The errors that were logged. -/
  errors : List BankError := []

abbrev EndBlockM := StateT EndBlockState (Except EndBlockPanic)

def readBank {A : Type} (program : BankProgram A) : EndBlockM A := fun state =>
  match stackStore.run program state.bank with
  | (.ok result, bank) => .ok (result, { state with bank := bank })
  | (.error cause, _) => .error (.bank cause)

/-- A bank call whose error is only logged. -/
def logged (program : BankProgram Unit) : EndBlockM Unit := fun state =>
  match stackStore.run program state.bank with
  | (.ok (), bank) => .ok ((), { state with bank := bank })
  | (.error (.panic cause), _) => .error (.bank (.panic cause))
  | (.error error, bank) => .ok ((), ⟨bank, state.errors ++ [error]⟩)

/-- The recipients that the EVM keeper accepts. -/
def receives (evm : ExtTreeMap Bytes Bytes) (addr : AccAddress) : Bool :=
  match (stackStore.run (canAddressReceive addr) ⟨evm, []⟩).1 with
  | .ok accepted => accepted
  | .error _ => false

def BlockEnv.keeper (evm : ExtTreeMap Bytes Bytes) : BaseSendKeeper :=
  ⟨config.lockedCoins, receives evm⟩

def getAnteSurplusSum : BankProgram Int :=
  state.anteSurplus.toList.foldlM (fun sum entry => SdkInt.add sum entry.2) 0

/-- A transaction without an entry was reverted, in the ante handler or in the message. -/
def deferredInfoOf (txIdx : Nat) (tx : EvmTx) : DeferredInfo :=
  match state.deferredInfo[txIdx]? with
  | some info => info
  | none => ⟨txIdx % 2 ^ 32, tx.hash, none, tx.log⟩

def getAllEVMTxDeferredInfo (state : BlockState) : Nat → List EvmTx → List DeferredInfo
  | _, [] => []
  | txIdx, tx :: rest =>
    deferredInfoOf state txIdx tx :: getAllEVMTxDeferredInfo state (txIdx + 1) rest

def emptyTxsHash : Hash := 0x56e81f171bcc55a6ff8345e692c0f86e5b48e01b996cadc001622fb5e363b421

/-- The fees of a transaction go from its temporary address to the fee collector. -/
def sweepCoinbase (keeper : BaseSendKeeper) (txIndex : Nat) : EndBlockM Unit := do
  let coinbaseAddress := getCoinbaseAddress txIndex
  let usei ← readBank (getBalance coinbaseAddress baseDenom)
  let balance ← readBank
    (SdkInt.sub usei.amount ((config.lockedCoins coinbaseAddress).amountOf baseDenom))
  let wei ← readBank (getWeiBalance coinbaseAddress)
  if balance ≠ 0 ∨ wei ≠ 0 then
    logged (keeper.sendCoinsAndWei coinbaseAddress config.feeCollector balance wei)
  else pure ()

def addDeferredSurplus (surplus : Int) : Option Int → EndBlockM Int
  | none => throw .nilSurplus
  | some amount => readBank (SdkInt.add surplus amount)

def collectDeferred (config : BlockEnv) (keeper : BaseSendKeeper) :
    List DeferredInfo → Int → EndBlockM Int
  | [], surplus => pure surplus
  | info :: rest, surplus =>
    if info.error ≠ "" ∧ info.txHash ≠ emptyTxsHash then collectDeferred config keeper rest surplus
    else do
      sweepCoinbase config keeper info.txIndex
      let sum ← addDeferredSurplus surplus info.surplus
      collectDeferred config keeper rest sum

def whenPositive (amount : Int) (program : BankProgram Unit) : EndBlockM Unit :=
  if amount > 0 then logged program else pure ()

def creditSurplus (keeper : BaseSendKeeper) (surplus : Int) : EndBlockM Unit :=
  if surplus > 0 then do
    whenPositive (splitUseiWeiAmount surplus).1
      (credit keeper config.evmModule (splitUseiWeiAmount surplus).1)
    whenPositive (splitUseiWeiAmount surplus).2
      (keeper.addWei config.evmModule (splitUseiWeiAmount surplus).2)
  else pure ()

def endBlock (txs : List EvmTx) (state : BlockState) : Except EndBlockPanic EndBlockState := do
  let keeper := config.keeper state.evm
  let program : EndBlockM Unit := do
    let anteSurplus ← readBank (getAnteSurplusSum state)
    let surplus ← collectDeferred config keeper (getAllEVMTxDeferredInfo state 0 txs) anteSurplus
    creditSurplus config keeper surplus
  let ((), ended) ← program { bank := ⟨state.bank, []⟩ }
  .ok ended

end SeiChain.Evm
