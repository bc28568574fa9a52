/-
This file models the in-memory part of the data layer: the finalized certificates
and blocks in global order, with the five cursors that say how far they have been
certified, received, persisted, executed and forgotten. The operations are the
critical sections of the source, one function for each. Where the source uses the
result of a map lookup without a check, a missing entry is an error of the model
that stands for the panic.
-/

import SeiChain.Autobahn.FullCommitQC

namespace SeiChain.Autobahn.Data

open Library Function

variable {Digest Sig : Type}

/-- How far certificates may run ahead of execution. -/
def blocksCacheSize : Nat := 4000

inductive DataError where
  | unknownEpoch (index : EpochIndex)
  | qcVerify (error : VerifyError)
  | blockVerify (error : VerifyError)
  | qcGap (expected got : GlobalBlockNumber)
  | headerHashMismatch (number : GlobalBlockNumber) (want got : BlockHeaderHash)
  | appProposalOutOfOrder (got want : GlobalBlockNumber)
  | behindAppTip (nextBlock tip : GlobalBlockNumber)
  | predatesGenesis (genesis got : GlobalBlockNumber)
  | iterator (number : GlobalBlockNumber)
  /-- The source dereferences a certificate that is not in the map. -/
  | missingQC (number : GlobalBlockNumber)
  /-- The source dereferences a block that is not in the map. -/
  | missingBlock (number : GlobalBlockNumber)
  /-- The source reads past the end of the headers of a certificate. -/
  | headerOutOfRange (number : GlobalBlockNumber)
  /-- `OrPanic("global block not in QC")`. -/
  | notInQC (number : GlobalBlockNumber)
  deriving DecidableEq

/-- The errors that are panics of the source. -/
def DataError.isPanic : DataError → Bool
  | missingQC _ | missingBlock _ | headerOutOfRange _ | notInQC _ => true
  | _ => false

/-! ### The state and its lookups -/

structure Inner (Sig : Type) where
  qcs : GlobalBlockNumber → Option (FullCommitQC Sig)
  blocks : GlobalBlockNumber → Option Block
  appProposals : GlobalBlockNumber → Option AppProposal
  blockHashes : BlockHeaderHash → Option GlobalBlockNumber
  first : GlobalBlockNumber
  nextAppProposal : GlobalBlockNumber
  nextBlockToPersist : GlobalBlockNumber
  nextBlock : GlobalBlockNumber
  nextQC : GlobalBlockNumber

def newInner (firstBlock : GlobalBlockNumber) : Inner Sig where
  qcs _ := none
  blocks _ := none
  appProposals _ := none
  blockHashes _ := none
  first := firstBlock
  nextAppProposal := firstBlock
  nextBlockToPersist := firstBlock
  nextBlock := firstBlock
  nextQC := firstBlock

variable (crypto : Crypto Digest Sig)

/-- `Headers()[number - GlobalRange().First].Hash()`. -/
def headerHashAt (qc : FullCommitQC Sig) (number : GlobalBlockNumber) :
    Except DataError BlockHeaderHash :=
  match qc.headerAt number with
  | some header => .ok (crypto.headerHash header)
  | none => .error (.headerOutOfRange number)

variable (inner : Inner Sig) (number : GlobalBlockNumber)

namespace Inner

/-- `qcs[number]`, where the source goes on to use the certificate. -/
def qcAt : Except DataError (FullCommitQC Sig) :=
  match inner.qcs number with
  | some qc => .ok qc
  | none => .error (.missingQC number)

/-- `blocks[number]`, where the source goes on to use the block. -/
def blockAt : Except DataError Block :=
  match inner.blocks number with
  | some block => .ok block
  | none => .error (.missingBlock number)

/-! ### Inserting certificates and blocks -/

def skipTo : Inner Sig :=
  { inner with
    first := number
    nextAppProposal := number
    nextBlockToPersist := number
    nextBlock := number
    nextQC := number }

/-- One round of the loop that stores a certificate under the numbers it covers. -/
def storeQC (qc : FullCommitQC Sig) : Inner Sig :=
  { inner with
    qcs := update inner.qcs inner.nextQC (some qc)
    nextQC := inner.nextQC + 1 }

def storeQCs (qc : FullCommitQC Sig) : Nat → Inner Sig → Inner Sig
  | 0, inner => inner
  | rounds + 1, inner => storeQCs qc rounds (inner.storeQC qc)

/-- `for nextQC < gr.Next`. -/
def extendQCs (qc : FullCommitQC Sig) : Inner Sig :=
  storeQCs qc (qc.globalRange.next - inner.nextQC) inner

def insertQC (registry : Registry) (inner : Inner Sig) (qc : FullCommitQC Sig) :
    Except DataError (Inner Sig) :=
  match registry.epochByIndex qc.qc.proposal.epochIndex with
  | none => .error (.unknownEpoch qc.qc.proposal.epochIndex)
  | some epoch =>
    match qc.verify crypto epoch with
    | .error error => .error (.qcVerify error)
    | .ok () =>
      if qc.globalRange.next ≤ inner.nextQC then .ok inner
      else if inner.nextQC < qc.globalRange.first then
        .error (.qcGap inner.nextQC qc.globalRange.first)
      else .ok (inner.extendQCs qc)

def storeBlock (block : Block) : Inner Sig :=
  { inner with
    blocks := update inner.blocks number (some block)
    blockHashes := update inner.blockHashes (crypto.headerHash block.header) (some number) }

def insertBlock (block : Block) : Except DataError (Inner Sig) :=
  if number < inner.nextBlock ∨ inner.nextQC ≤ number then .ok inner
  else if (inner.blocks number).isSome then .ok inner
  else do
    let qc ← inner.qcAt number
    let want ← headerHashAt crypto qc number
    let got := crypto.headerHash block.header
    if want ≠ got then .error (.headerHashMismatch number want got)
    else .ok (inner.storeBlock crypto number block)

/-- The loop of `updateNextBlock`, for the given number of rounds. -/
def advanceBlocks : Nat → Inner Sig → Inner Sig
  | 0, inner => inner
  | rounds + 1, inner =>
    match inner.blocks inner.nextBlock with
    | none => inner
    | some _ => advanceBlocks rounds { inner with nextBlock := inner.nextBlock + 1 }

/-- `updateNextBlock`. No block is stored at or above `nextQC`, so that many rounds are enough
for the loop to end at a missing block. -/
def updateNextBlock : Inner Sig := advanceBlocks (inner.nextQC - inner.nextBlock) inner

/-- One round of `insertBlocksByHash`. -/
def insertByHash (byHash : BlockHeaderHash → Option Block) (inner : Inner Sig)
    (number : GlobalBlockNumber) : Except DataError (Inner Sig) := do
  let qc ← inner.qcAt number
  let hash ← headerHashAt crypto qc number
  match byHash hash with
  | none => .ok inner
  | some block => inner.insertBlock crypto number block

def insertBlocksByHash (range : GlobalRange) (byHash : BlockHeaderHash → Option Block) :
    Except DataError (Inner Sig) := do
  let low := max inner.nextBlock range.first
  let high := min range.next inner.nextQC
  let filled ← (List.range' low (high - low)).foldlM (insertByHash crypto byHash) inner
  return filled.updateNextBlock

/-! ### Eviction and execution -/

/-- The certificate at the tip names the state hash that a quorum has agreed on; everything up
to its block may be forgotten. -/
def certifiedAppFloor : Except DataError GlobalBlockNumber :=
  if inner.first = inner.nextQC then .ok 0
  else do
    let tip ← inner.qcAt (inner.nextQC - 1)
    return match tip.qc.proposal.app with
      | none => 0
      | some app => add64 app.globalNumber 1

/-- One round of the loop of `evictBelowBound`. -/
def forget : Inner Sig :=
  let kept : Inner Sig :=
    match inner.blocks number with
    | none => inner
    | some block =>
      { inner with
        blockHashes := update inner.blockHashes (crypto.headerHash block.header) none
        blocks := update inner.blocks number none }
  { kept with
    qcs := update kept.qcs number none
    appProposals := update kept.appProposals number none }

def forgetFrom (crypto : Crypto Digest Sig) : Nat → GlobalBlockNumber → Inner Sig → Inner Sig
  | 0, _, inner => inner
  | rounds + 1, number, inner =>
    forgetFrom crypto rounds (number + 1) (inner.forget crypto number)

def evictBelowBound : Except DataError (Inner Sig) := do
  let floor ← inner.certifiedAppFloor
  let bound := min inner.nextAppProposal floor
  if bound ≤ inner.first then .ok inner
  else .ok { forgetFrom crypto (bound - inner.first) inner.first inner with first := bound }

/-- The loop of `PushAppHash`. It reads each block for its metrics. -/
def markExecuted (proposal : AppProposal) : Nat → Inner Sig → Except DataError (Inner Sig)
  | 0, inner => .ok inner
  | rounds + 1, inner => do
    let _ ← inner.blockAt inner.nextAppProposal
    markExecuted proposal rounds { inner with
      appProposals := update inner.appProposals inner.nextAppProposal (some proposal)
      nextAppProposal := inner.nextAppProposal + 1 }

/-- `PushAppHash` after its block is persisted. -/
def executeThrough (hash : Bytes) : Except DataError (Inner Sig) := do
  let qc ← inner.qcAt number
  let proposal : AppProposal := {
    globalNumber := number
    roadIndex := qc.qc.proposal.index
    appHash := hash
    epochIndex := qc.qc.proposal.epochIndex }
  let marked ← markExecuted proposal (number + 1 - inner.nextAppProposal) inner
  marked.evictBelowBound crypto

/-! ### Reading -/

end Inner

/-- What a read of the data layer finds: it has to wait, the entry is not in memory and is read
from the store, or the entry. -/
inductive Answer (Value : Type) where
  | wait
  | fromDB
  | value (value : Value)

def assembleGlobalBlock (block : Block) (qc : FullCommitQC Sig) : Except DataError GlobalBlock :=
  match qc.qc.proposal.blockTimestamp number with
  | none => .error (.notInQC number)
  | some timestamp => .ok {
      header := block.header
      timestamp := timestamp
      globalNumber := number
      payload := block.payload
      finalAppState := qc.qc.proposal.app }

namespace Inner

/-- A read by number: it waits for the cursor `next`, and what has been evicted is read from the
store. -/
def readRetained {Value : Type} (inner : Inner Sig) (next number : GlobalBlockNumber)
    (found : Except DataError Value) : Except DataError (Answer Value) :=
  if next ≤ number then .ok .wait
  else if number < inner.first then .ok .fromDB
  else .value <$> found

/-- `QC`. -/
def qc : Except DataError (Answer (FullCommitQC Sig)) :=
  inner.readRetained inner.nextQC number (inner.qcAt number)

/-- `Block`, and `TryBlock`, which reports `ErrNotFound` where `Block` waits. -/
def block : Except DataError (Answer Block) :=
  inner.readRetained inner.nextBlock number (inner.blockAt number)

/-- The global block of a number that is in memory. -/
def assembleAt : Except DataError GlobalBlock := do
  let block ← inner.blockAt number
  let qc ← inner.qcAt number
  assembleGlobalBlock number block qc

def globalBlock : Except DataError (Answer GlobalBlock) :=
  inner.readRetained inner.nextBlock number (inner.assembleAt number)

def globalBlockByHash (hash : BlockHeaderHash) : Except DataError (Answer GlobalBlock) :=
  match inner.blockHashes hash with
  | none => .ok .fromDB
  | some number => .value <$> inner.assembleAt number

/-- The next block of a lane to be executed. -/
def nextToExecute (lane : LaneID) : Except DataError BlockNumber :=
  if inner.first = inner.nextQC then .ok 0
  else if inner.nextAppProposal = inner.nextQC then do
    let tip ← inner.qcAt (inner.nextAppProposal - 1)
    return (tip.qc.laneRange lane).next
  else do
    let qc ← inner.qcAt inner.nextAppProposal
    match qc.headerAt inner.nextAppProposal with
    | none => .error (.headerOutOfRange inner.nextAppProposal)
    | some header =>
      if lane < header.lane then return (qc.qc.laneRange lane).next
      else if header.lane < lane then return (qc.qc.laneRange lane).first
      else return header.blockNumber

end Inner

end SeiChain.Autobahn.Data
