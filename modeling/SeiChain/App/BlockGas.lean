/-
This file models the gas check of a proposed block: which transactions are free of
gas, how much gas each of the others asks for, and the two totals that are held
against the block parameters. Transactions are given by what the check reads of
them. The keepers that say whether an oracle vote or an address association is
free are parameters.
-/

import SeiChain.Library.Codes

namespace SeiChain.App

/-! ### Transactions -/

/-- The messages that the check tells apart. The gas of an EVM transaction is missing if its data
cannot be read as a transaction. -/
inductive TxMsg where
  | evmTransaction (isAssociateTx : Bool) (gas : Option Nat)
  | aggregateExchangeRateVote (feeder validator : String)
  | associate (sender customMessage : String)
  | other
  deriving DecidableEq, Repr

/-- `feeGas` is the gas of a transaction that has a fee; others are not processed. -/
structure Tx where
  msgs : List TxMsg
  feeGas : Option Nat
  gasEstimate : Nat
  deriving DecidableEq, Repr

def TxMsg.isEVM : TxMsg → Bool
  | evmTransaction _ _ => true
  | _ => false

/-- Whether a transaction is an EVM one; an EVM message must be alone. -/
def isEVMMessage (tx : Tx) : Option Bool :=
  if tx.msgs.any TxMsg.isEVM ∧ tx.msgs.length ≠ 1 then none else some (tx.msgs.any TxMsg.isEVM)

def couldBeGaslessTransaction (tx : Tx) : Bool :=
  tx.msgs.any fun
    | .associate _ _ => true
    | .aggregateExchangeRateVote _ _ => true
    | _ => false

/-! ### Transactions that are free of gas -/

/-- A panic that was recovered, or a reason for which a transaction is not free. -/
inductive GaslessError where
  | panicked
  | refused
  deriving DecidableEq, Repr

/-- What the keepers say in a given context; the one on associations may panic. -/
structure Keepers (Ctx : Type) where
  oracleVoteIsGasless : Ctx → (feeder validator : String) → Except GaslessError Bool
  evmAssociateIsGasless : Ctx → (sender customMessage : String) → Option Bool

variable {Ctx : Type}

/-- The loop of `IsTxGasless` over the messages; `alone` says that there is one message only. -/
def gaslessMsgs (keepers : Keepers Ctx) (ctx : Ctx) (alone : Bool) :
    List TxMsg → Except GaslessError Bool
  | [] => .ok true
  | .aggregateExchangeRateVote feeder validator :: rest =>
    match keepers.oracleVoteIsGasless ctx feeder validator with
    | .ok true => gaslessMsgs keepers ctx alone rest
    | answer => answer
  | .associate sender customMessage :: _ =>
    match keepers.evmAssociateIsGasless ctx sender customMessage with
    | some true => .ok alone
    | some false => .ok false
    | none => .error .panicked
  | _ :: _ => .ok false

variable (keepers : Keepers Ctx)

def isTxGasless (ctx : Ctx) (tx : Tx) : Except GaslessError Bool :=
  if tx.msgs = [] then .ok false else gaslessMsgs keepers ctx (tx.msgs.length = 1) tx.msgs

/-! ### The gas of a block -/

structure BlockParams where
  maxGas : Int
  maxGasWanted : Int
  deriving DecidableEq, Repr

/-- What one transaction means for the block. -/
inductive GasCharge where
  | skip
  | reject
  | wanted (gas : Nat)
  deriving DecidableEq, Repr

/-- Whether a transaction is taken to be free; nothing if the question panicked. -/
def gaslessAnswer (ctx : Ctx) (tx : Tx) : Option Bool :=
  if isEVMMessage tx = some true ∨ couldBeGaslessTransaction tx = false then some false
  else
    match isTxGasless keepers ctx tx with
    | .ok answer => some answer
    | .error .refused => some false
    | .error .panicked => none

/-- The gas that a transaction asks for if it is not free. -/
def gasWanted (tx : Tx) : GasCharge :=
  match isEVMMessage tx, tx.msgs with
  | some true, .evmTransaction isAssociateTx gas :: _ =>
    if isAssociateTx then .skip else (gas.map .wanted).getD .reject
  | some true, _ => .reject
  | some false, _ => (tx.feeGas.map .wanted).getD .skip
  | none, _ => .skip

def gasCharge (ctx : Ctx) (tx : Tx) : GasCharge :=
  match gaslessAnswer keepers ctx tx with
  | none => .reject
  | some true => .skip
  | some false => gasWanted tx

/-- The least gas of an EVM transaction. -/
def minGasEVMTx : Nat := 21000

/-- An integer of 64 bits read as an unsigned one. -/
def uint64OfInt64 (number : Int) : Nat := (number % 2 ^ 64).toNat

/-- The loop of `checkTotalBlockGas`. A missing transaction is one that was not decoded; the block
parameters are read once a transaction asks for gas, and missing ones make that read panic. -/
def checkTotalBlockGas (keepers : Keepers Ctx) (ctx : Ctx) (params : Option BlockParams) :
    List (Option Tx) → (totalGas totalGasWanted : Nat) → Bool
  | [], _, _ => true
  | none :: _, _, _ => false
  | some tx :: rest, totalGas, totalGasWanted =>
    match gasCharge keepers ctx tx with
    | .reject => false
    | .skip => checkTotalBlockGas keepers ctx params rest totalGas totalGasWanted
    | .wanted gas =>
      if gas ≥ 2 ^ 63 ∨ totalGasWanted > 2 ^ 64 - 1 - gas ∨ totalGas > 2 ^ 64 - 1 - gas then false
      else
        let totalGasWanted := totalGasWanted + gas
        let totalGas := totalGas +
          if minGasEVMTx ≤ tx.gasEstimate ∧ tx.gasEstimate ≤ gas then tx.gasEstimate else gas
        match params with
        | none => false
        | some params =>
          if totalGasWanted > uint64OfInt64 params.maxGasWanted ∨
              totalGas > uint64OfInt64 params.maxGas then false
          else checkTotalBlockGas keepers ctx (some params) rest totalGas totalGasWanted

end SeiChain.App
