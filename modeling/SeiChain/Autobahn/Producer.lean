/-
This file models the mempool of a block producer: the open block that collects
transactions, the sealed blocks of the local lane that are not executed yet, and the
nonces of their senders. Transactions are checked against the limits of a block with
subtractions that wrap, which is right because the open block is within its limits.
As long as blocks are pruned only after they were sealed, the mempool has exactly the
blocks between its cursors and each can be built. Pruning past the sealed blocks
moves one cursor only, and the next call finds no block.
-/

import SeiChain.Autobahn.Proposal
import SeiChain.Library.Transition
import Std.Data.ExtTreeMap

namespace SeiChain.Autobahn.Producer

open Library Std List Function Option Nat

abbrev Address := Nat
abbrev TxHash := Nat

structure Config where
  maxGasWantedPerBlock : Nat
  maxGasEstimatedPerBlock : Nat
  maxTxsPerBlock : Nat
  allowEmptyBlocks : Bool

def minTxGas : Nat := 21000

variable (config : Config)

/-- `maxTxsPerBlock()`. -/
def Config.txsPerBlock : Nat := min Autobahn.maxTxsPerBlock config.maxTxsPerBlock

structure BlockSpec where
  gasEstimated : Nat := 0
  gasWanted : Nat := 0
  sizeBytes : Nat := 0
  txs : List Bytes := []
  evmHashes : List TxHash := []
  evmNonces : ExtTreeMap Address Nat := ∅

structure Mempool where
  capacity : Nat
  first : BlockNumber
  next : BlockNumber
  blocks : BlockNumber → Option BlockSpec
  nextBlock : BlockSpec
  evmNonces : Address → Option Nat
  evmTxs : TxHash → Option Bytes

/-- `BlocksPerLane`. -/
def blocksPerLane : Nat := 3 * maxLaneRangeInProposal

/-- The mempool of `NewState`, `number` being the next block of the lane. -/
def newMempool (number : BlockNumber) : Mempool where
  capacity := blocksPerLane
  first := number
  next := number
  blocks _ := none
  nextBlock := {}
  evmNonces _ := none
  evmTxs _ := none

variable (mempool : Mempool)

namespace Mempool

def isFull : Bool :=
  mempool.capacity ≤ sub64 mempool.next mempool.first && 0 < mempool.nextBlock.txs.length

def canSealBlock (allowEmpty : Bool) : Bool :=
  sub64 mempool.next mempool.first < mempool.capacity &&
    (allowEmpty || 0 < mempool.nextBlock.txs.length)

def sealBlock : Mempool :=
  { mempool with
    blocks := update mempool.blocks mempool.next (some mempool.nextBlock)
    next := add64 mempool.next 1
    nextBlock := {} }

/-! ### Pruning -/

variable (appNonce : Address → Nat)

/-- The round for one account of a block that was executed. -/
def settleNonce (mempool : Mempool) (account : Address × Nat) : Mempool :=
  if account.2 = (mempool.evmNonces account.1).getD 0 then
    { mempool with evmNonces := update mempool.evmNonces account.1 none }
  else if appNonce account.1 < account.2 then
    let forget := fun spec : BlockSpec => { spec with evmNonces := spec.evmNonces.erase account.1 }
    { mempool with
      evmNonces := update mempool.evmNonces account.1 none
      nextBlock := forget mempool.nextBlock
      blocks := fun number => (mempool.blocks number).map forget }
  else mempool

/-- One round of the loop of `pruneMempool`; `none` where it dereferences a missing block. -/
def pruneFirst (mempool : Mempool) : Option Mempool :=
  (mempool.blocks mempool.first).map fun spec =>
    spec.evmNonces.toList.foldl (settleNonce appNonce)
      { mempool with
        blocks := update mempool.blocks mempool.first none
        first := add64 mempool.first 1
        evmTxs := spec.evmHashes.foldl (fun txs hash => update txs hash none) mempool.evmTxs }

def pruneRounds (appNonce : Address → Nat) : Nat → Mempool → Option Mempool
  | 0, mempool => some mempool
  | rounds + 1, mempool => (mempool.pruneFirst appNonce).bind (pruneRounds appNonce rounds)

def pruneMempool (mempool : Mempool) (number : BlockNumber) : Option Mempool :=
  if number < mempool.first then some mempool
  else (pruneRounds appNonce (min number mempool.next - mempool.first) mempool).map fun pruned =>
    { pruned with next := max pruned.next number }

end Mempool

/-! ### Inserting transactions -/

/-- What `CheckTxSafe` answers. -/
structure CheckTx where
  ok : Bool
  gasWanted : Int
  gasEstimated : Int
  isEVM : Bool
  evmSenderAddress : Address
  evmNonce : Nat
  evmHash : TxHash

/-- Why `insertTx` does not insert; `waits` while the mempool is full. -/
inductive InsertError where
  | tooLarge
  | checkFailed
  | rejected
  | waits
  | mempoolFull
  | badNonce (got want : Nat)

variable (spec : BlockSpec)

/-- Whether the open block has room; the subtractions are those of `uint64`. -/
def BlockSpec.hasRoom (config : Config) (tx : Bytes) (gasWanted gasEstimated : Nat) : Bool :=
  1 ≤ sub64 config.txsPerBlock spec.txs.length &&
  tx.length ≤ sub64 maxTxsBytesPerBlock spec.sizeBytes &&
  gasWanted ≤ sub64 config.maxGasWantedPerBlock spec.gasWanted &&
  gasEstimated ≤ sub64 config.maxGasEstimatedPerBlock spec.gasEstimated

/-- Append a transaction to a block; `sender` is the account of an EVM transaction with its next
nonce and the hash. -/
def BlockSpec.add (tx : Bytes) (gasWanted gasEstimated : Nat)
    (sender : Option (Address × Nat × TxHash)) : BlockSpec where
  gasEstimated := add64 spec.gasEstimated gasEstimated
  gasWanted := add64 spec.gasWanted gasWanted
  sizeBytes := add64 spec.sizeBytes tx.length
  txs := spec.txs ++ [tx]
  evmHashes := spec.evmHashes ++ (sender.map fun sender => sender.2.2).toList
  evmNonces := match sender with
    | some sender => spec.evmNonces.insert sender.1 sender.2.1
    | none => spec.evmNonces

/-- The part of `insertTx` under the lock, after the nonce is checked. -/
def Mempool.append (config : Config) (tx : Bytes) (gasWanted gasEstimated : Nat)
    (sender : Option (Address × Nat × TxHash)) : Mempool :=
  let target :=
    if mempool.nextBlock.hasRoom config tx gasWanted gasEstimated then mempool
    else mempool.sealBlock
  { target with
    nextBlock := target.nextBlock.add tx gasWanted gasEstimated sender
    evmNonces := match sender with
      | some sender => update target.evmNonces sender.1 (some sender.2.1)
      | none => target.evmNonces
    evmTxs := match sender with
      | some sender => update target.evmTxs sender.2.2 (some tx)
      | none => target.evmTxs }

def insertTx (appNonce : Address → Nat) (mempool : Mempool) (tx : Bytes) (checked : Option CheckTx)
    (waitIfFull : Bool) : Except InsertError Mempool := do
  if maxTxsBytesPerBlock < tx.length then throw .tooLarge
  let some response := checked | throw .checkFailed
  if !response.ok then throw .rejected
  let gasWanted := response.gasWanted.toNat
  if config.maxGasWantedPerBlock < gasWanted then throw .tooLarge
  let estimate := response.gasEstimated.toNat
  let gasEstimated := if estimate < minTxGas ∨ gasWanted < estimate then gasWanted else estimate
  if config.maxGasEstimatedPerBlock < gasEstimated then throw .tooLarge
  if mempool.isFull then throw (if waitIfFull then .waits else .mempoolFull)
  if response.isEVM then
    let nonce := (mempool.evmNonces response.evmSenderAddress).getD
      (appNonce response.evmSenderAddress)
    if nonce ≠ response.evmNonce then throw (.badNonce response.evmNonce nonce)
    return mempool.append config tx gasWanted gasEstimated
      (some (response.evmSenderAddress, add64 nonce 1, response.evmHash))
  else return mempool.append config tx gasWanted gasEstimated none

/-! ### Producing blocks -/

inductive ProduceError where
  | mismatched
  | build (error : PayloadError)

/-- The payload of a block. -/
def BlockSpec.payload (time : Timestamp) : Except PayloadError Payload :=
  PayloadBuilder.build {
    createdAt := time
    totalGasWanted := spec.gasWanted
    totalGasEstimated := spec.gasEstimated
    txs := spec.txs }

def Mempool.takeBlock (toProduce : BlockNumber) (time : Timestamp) : Except ProduceError Payload :=
  match mempool.blocks toProduce with
  | none => .error .mismatched
  | some spec => (spec.payload time).mapError .build

/-- The critical section of `Run` that takes the block `toProduce`, sealing it if it is the open
one; `none` while it waits. -/
def produce (toProduce : BlockNumber) (time : Timestamp) :
    Option (Mempool × Except ProduceError Payload) :=
  if toProduce < mempool.next then some (mempool, mempool.takeBlock toProduce time)
  else if toProduce = mempool.next ∧ mempool.canSealBlock config.allowEmptyBlocks then
    some (mempool.sealBlock, mempool.sealBlock.takeBlock toProduce time)
  else none

inductive Event where
  | insertTx (tx : Bytes) (checked : Option CheckTx) (waitIfFull : Bool) (appNonce : Address → Nat)
  | produce (toProduce : BlockNumber) (time : Timestamp)
  | prune (number : BlockNumber) (appNonce : Address → Nat)

/-- One step; an insertion that fails leaves the mempool as it is. -/
def step : Event → Option Mempool
  | .insertTx tx checked waitIfFull appNonce =>
    match Producer.insertTx config appNonce mempool tx checked waitIfFull with
    | .error _ => some mempool
    | .ok after => some after
  | .produce toProduce time => (Producer.produce config mempool toProduce time).map Prod.fst
  | .prune number appNonce => mempool.pruneMempool appNonce number

/-! ### Blocks within their limits -/

structure Config.Valid : Prop where
  gasWanted : config.maxGasWantedPerBlock < 2 ^ 64
  gasEstimated : config.maxGasEstimatedPerBlock < 2 ^ 64
  txs : 1 ≤ config.maxTxsPerBlock

structure BlockSpec.Within (config : Config) : Prop where
  txs : spec.txs.length ≤ config.txsPerBlock
  size : spec.sizeBytes = (spec.txs.map List.length).sum
  bytes : spec.sizeBytes ≤ maxTxsBytesPerBlock
  gasWanted : spec.gasWanted ≤ config.maxGasWantedPerBlock
  gasEstimated : spec.gasEstimated ≤ config.maxGasEstimatedPerBlock
  fresh : spec.txs = [] → spec.gasWanted = 0 ∧ spec.gasEstimated = 0

theorem within_empty : ({} : BlockSpec).Within config :=
  ⟨zero_le _, rfl, zero_le _, zero_le _, zero_le _, fun _ => ⟨rfl, rfl⟩⟩

theorem foldl_add64_length {total : Nat} {txs : List Bytes}
    (fits : total + (txs.map List.length).sum < 2 ^ 64) :
    txs.foldl (fun total tx => add64 total tx.length) total =
      total + (txs.map List.length).sum := by
  induction txs generalizing total with
  | nil => rfl
  | cons tx rest ih =>
    rw [map_cons, sum_cons] at fits ⊢
    have added : add64 total tx.length = total + tx.length := mod_eq_of_lt (by omega)
    rw [foldl_cons, added, ih (by omega), add_assoc]

namespace BlockSpec.Within

variable {spec : BlockSpec} {config : Config} (within : spec.Within config)

include within

/-- A block within its limits can be built. -/
theorem payload (time : Timestamp) : ∃ payload, spec.payload time = .ok payload := by
  obtain ⟨few, size, bytes, _⟩ := within
  have total : spec.txs.foldl (fun total tx => add64 total tx.length) 0 =
      0 + (spec.txs.map List.length).sum := by
    refine foldl_add64_length ?_
    unfold maxTxsBytesPerBlock maxTxsPerBlock standardTxBytes at bytes
    omega
  rw [zero_add, ← size] at total
  unfold BlockSpec.payload PayloadBuilder.build
  rw [dif_pos (few.trans (min_le_left _ _)), dif_pos (by
    rw [PayloadBuilder.txsBytes, total]
    exact bytes)]
  exact ⟨_, rfl⟩

variable (valid : config.Valid) {tx : Bytes} {gasWanted gasEstimated : Nat}

include valid

theorem hasRoom_iff : spec.hasRoom config tx gasWanted gasEstimated = true ↔
    spec.txs.length + 1 ≤ config.txsPerBlock ∧ spec.sizeBytes + tx.length ≤ maxTxsBytesPerBlock ∧
    spec.gasWanted + gasWanted ≤ config.maxGasWantedPerBlock ∧
    spec.gasEstimated + gasEstimated ≤ config.maxGasEstimatedPerBlock := by
  obtain ⟨few, _, bytes, wanted, estimated, _⟩ := within
  have small : config.txsPerBlock < 2 ^ 64 := (min_le_left _ _).trans_lt (by decide)
  unfold BlockSpec.hasRoom
  rw [sub64_of_le few small, sub64_of_le bytes (by decide), sub64_of_le wanted valid.gasWanted,
    sub64_of_le estimated valid.gasEstimated]
  simp only [Bool.and_eq_true, decide_eq_true_eq]
  omega

theorem add (room : spec.hasRoom config tx gasWanted gasEstimated = true)
    (sender : Option (Address × Nat × TxHash)) :
    (spec.add tx gasWanted gasEstimated sender).Within config := by
  obtain ⟨few, bytes, wanted, estimated⟩ := (within.hasRoom_iff valid).mp room
  have sizes := within.size
  have bounds := valid.gasWanted
  have moreBounds := valid.gasEstimated
  have bytesBound : maxTxsBytesPerBlock < 2 ^ 64 := by decide
  have sameSize : add64 spec.sizeBytes tx.length = spec.sizeBytes + tx.length :=
    mod_eq_of_lt (by omega)
  have sameWanted : add64 spec.gasWanted gasWanted = spec.gasWanted + gasWanted :=
    mod_eq_of_lt (by omega)
  have sameEstimated : add64 spec.gasEstimated gasEstimated = spec.gasEstimated + gasEstimated :=
    mod_eq_of_lt (by omega)
  constructor <;> simp only [BlockSpec.add, sameSize, sameWanted, sameEstimated]
  · simpa using few
  · simp [sizes]
  · exact bytes
  · exact wanted
  · exact estimated
  · simp

end BlockSpec.Within

/-! ### The invariant -/

structure Mempool.Sound : Prop where
  ordered : mempool.first ≤ mempool.next
  small : mempool.next < 2 ^ 64
  blocks : ∀ number, (mempool.blocks number).isSome ↔ mempool.first ≤ number ∧ number < mempool.next
  room : mempool.next - mempool.first ≤ mempool.capacity
  openBlock : mempool.nextBlock.Within config
  sealedBlocks : ∀ number spec, mempool.blocks number = some spec → spec.Within config

namespace Mempool.Sound

variable {mempool : Mempool} {config : Config} (sound : mempool.Sound config)

include sound

theorem sealBlock (below : mempool.next - mempool.first < mempool.capacity)
    (fits : mempool.next + 1 < 2 ^ 64) : mempool.sealBlock.Sound config := by
  have ordered := sound.ordered
  have added : add64 mempool.next 1 = mempool.next + 1 := mod_eq_of_lt fits
  constructor <;> simp only [Mempool.sealBlock, added]
  · lia
  · lia
  · intro number
    by_cases isNext : number = mempool.next
    · simp [isNext, ordered]
    · rw [update_of_ne isNext, sound.blocks]
      lia
  · lia
  · exact within_empty config
  · intro number spec found
    by_cases isNext : number = mempool.next
    · subst isNext
      rw [update_self] at found
      exact Option.some.inj found ▸ sound.openBlock
    · rw [update_of_ne isNext] at found
      exact sound.sealedBlocks number spec found

theorem not_full (notFull : mempool.isFull = false) :
    mempool.next - mempool.first < mempool.capacity ∨ mempool.nextBlock.txs = [] := by
  rw [Mempool.isFull, sub64_of_le sound.ordered sound.small] at notFull
  rw [or_iff_not_imp_left]
  simpa using notFull

/-- Before a transaction goes into the open block, a block that has no room for it is sealed. An
empty block has room. -/
theorem append (valid : config.Valid) (notFull : mempool.isFull = false)
    (fits : mempool.next + 1 < 2 ^ 64) {tx : Bytes} {gasWanted gasEstimated : Nat}
    (bytes : tx.length ≤ maxTxsBytesPerBlock) (wanted : gasWanted ≤ config.maxGasWantedPerBlock)
    (estimated : gasEstimated ≤ config.maxGasEstimatedPerBlock)
    (sender : Option (Address × Nat × TxHash)) :
    (mempool.append config tx gasWanted gasEstimated sender).Sound config := by
  have emptyHasRoom {spec : BlockSpec} (within : spec.Within config) (empty : spec.txs = []) :
      spec.hasRoom config tx gasWanted gasEstimated = true := by
    have txs := valid.txs
    have few : 1 ≤ config.txsPerBlock := Nat.le_min.mpr ⟨by decide, txs⟩
    have size := within.size
    obtain ⟨noWanted, noEstimated⟩ := within.fresh empty
    rw [within.hasRoom_iff valid]
    simp only [empty, map_nil, sum_nil, length_nil] at size ⊢
    omega
  have target : ∃ target : Mempool, target.Sound config ∧
      target.nextBlock.hasRoom config tx gasWanted gasEstimated = true ∧
      (if mempool.nextBlock.hasRoom config tx gasWanted gasEstimated then mempool
        else mempool.sealBlock) = target := by
    split
    case isTrue room => exact ⟨mempool, sound, room, rfl⟩
    case isFalse noRoom =>
      have below := (sound.not_full notFull).resolve_right fun empty =>
        noRoom (emptyHasRoom sound.openBlock empty)
      exact ⟨_, sound.sealBlock below fits, emptyHasRoom (within_empty config) rfl, rfl⟩
  obtain ⟨target, targetSound, room, isTarget⟩ := target
  unfold Mempool.append
  rw [isTarget]
  exact { targetSound with openBlock := targetSound.openBlock.add valid room sender }

theorem insertTx (valid : config.Valid) (fits : mempool.next + 1 < 2 ^ 64)
    {appNonce : Address → Nat} {tx : Bytes} {checked : Option CheckTx} {waitIfFull : Bool}
    {after : Mempool}
    (inserted : insertTx config appNonce mempool tx checked waitIfFull = .ok after) :
    after.Sound config := by
  unfold Producer.insertTx at inserted
  cases checked with
  | none =>
    simp only [throw, throwThe, MonadExceptOf.throw, bind, Except.bind] at inserted
    split_ifs at inserted
  | some =>
    simp only [throw, throwThe, MonadExceptOf.throw, bind, Except.bind, pure,
      Except.pure] at inserted
    -- What is left of the cases are those that append, with the estimate taken or replaced.
    split_ifs at inserted
    all_goals
      obtain rfl := Except.ok.inj inserted
      exact sound.append valid (by simp_all) fits (by omega) (by omega) (by omega) _

variable (appNonce : Address → Nat)

theorem settleNonce (account : Address × Nat) :
    (mempool.settleNonce appNonce account).Sound config ∧
    (mempool.settleNonce appNonce account).first = mempool.first ∧
    (mempool.settleNonce appNonce account).next = mempool.next := by
  unfold Mempool.settleNonce
  split
  · exact ⟨{ sound with }, rfl, rfl⟩
  · split
    · refine ⟨{ sound with blocks := ?_, openBlock := ?_, sealedBlocks := ?_ }, rfl, rfl⟩
      · intro number
        rw [isSome_map, sound.blocks]
      · exact { sound.openBlock with }
      · intro number spec found
        obtain ⟨old, isOld, rfl⟩ := map_eq_some_iff.mp found
        exact { sound.sealedBlocks number old isOld with }
    · exact ⟨sound, rfl, rfl⟩

theorem settleNonces (accounts : List (Address × Nat)) :
    (accounts.foldl (Mempool.settleNonce appNonce) mempool).Sound config ∧
    (accounts.foldl (Mempool.settleNonce appNonce) mempool).first = mempool.first ∧
    (accounts.foldl (Mempool.settleNonce appNonce) mempool).next = mempool.next := by
  induction accounts generalizing mempool with
  | nil => exact ⟨sound, rfl, rfl⟩
  | cons account rest ih =>
    obtain ⟨settled, sameFirst, sameNext⟩ := sound.settleNonce appNonce account
    obtain ⟨restSettled, restFirst, restNext⟩ := ih settled
    exact ⟨restSettled, restFirst.trans sameFirst, restNext.trans sameNext⟩

theorem pruneFirst (nonempty : mempool.first < mempool.next) :
    ∃ after, mempool.pruneFirst appNonce = some after ∧ after.Sound config ∧
      after.first = mempool.first + 1 ∧ after.next = mempool.next := by
  have small := sound.small
  have room := sound.room
  have added : add64 mempool.first 1 = mempool.first + 1 := mod_eq_of_lt (by lia)
  obtain ⟨spec, found⟩ := isSome_iff_exists.mp
    ((sound.blocks mempool.first).mpr ⟨Nat.le_refl _, nonempty⟩)
  unfold Mempool.pruneFirst
  rw [found, added]
  refine ⟨_, rfl, settleNonces ?_ appNonce spec.evmNonces.toList⟩
  refine { sound with ordered := nonempty, blocks := ?_, room := ?_, sealedBlocks := ?_ }
  · intro number
    dsimp only
    by_cases isFirst : number = mempool.first
    · simp [isFirst]
    · rw [update_of_ne isFirst, sound.blocks]
      lia
  · lia
  · intro number spec stored
    dsimp only at stored
    by_cases isFirst : number = mempool.first
    · rw [isFirst, update_self] at stored
      exact nomatch stored
    · rw [update_of_ne isFirst] at stored
      exact sound.sealedBlocks number spec stored

theorem pruneRounds {rounds : Nat} (within : mempool.first + rounds ≤ mempool.next) :
    ∃ after, Mempool.pruneRounds appNonce rounds mempool = some after ∧ after.Sound config ∧
      after.next = mempool.next := by
  induction rounds generalizing mempool with
  | zero => exact ⟨mempool, rfl, sound, rfl⟩
  | succ rounds ih =>
    obtain ⟨middle, pruned, middleSound, first, next⟩ := sound.pruneFirst appNonce (by lia)
    obtain ⟨after, rest, afterSound, afterNext⟩ := ih middleSound (by lia)
    refine ⟨after, ?_, afterSound, afterNext.trans next⟩
    rw [Mempool.pruneRounds, pruned]
    exact rest

/-- Pruning what was sealed finds every block. -/
theorem pruneMempool {number : BlockNumber} (wasSealed : number ≤ mempool.next) :
    ∃ after, mempool.pruneMempool appNonce number = some after ∧ after.Sound config := by
  unfold Mempool.pruneMempool
  split
  · exact ⟨mempool, rfl, sound⟩
  · have within : mempool.first + (min number mempool.next - mempool.first) ≤ mempool.next := by
      lia
    obtain ⟨after, pruned, afterSound, next⟩ := sound.pruneRounds appNonce within
    have kept : max after.next number = after.next := by lia
    rw [pruned, map_some, kept]
    exact ⟨after, rfl, afterSound⟩

theorem takeBlock {toProduce : BlockNumber} (inRange : mempool.first ≤ toProduce)
    (below : toProduce < mempool.next) (time : Timestamp) :
    ∃ payload, mempool.takeBlock toProduce time = .ok payload := by
  obtain ⟨spec, found⟩ := isSome_iff_exists.mp ((sound.blocks toProduce).mpr ⟨inRange, below⟩)
  obtain ⟨payload, built⟩ := (sound.sealedBlocks toProduce spec found).payload time
  refine ⟨payload, ?_⟩
  rw [Mempool.takeBlock, found]
  dsimp only
  rw [built]
  rfl

theorem produce (fits : mempool.next + 1 < 2 ^ 64) {toProduce : BlockNumber} {time : Timestamp}
    {result : Mempool × Except ProduceError Payload}
    (produced : produce config mempool toProduce time = some result) :
    result.1.Sound config ∧ (result.1.first ≤ toProduce → ∃ payload, result.2 = .ok payload) := by
  unfold Producer.produce at produced
  split_ifs at produced with below atNext
  · obtain rfl := Option.some.inj produced
    exact ⟨sound, fun inRange => sound.takeBlock inRange below time⟩
  · obtain rfl := Option.some.inj produced
    obtain ⟨isNext, canSeal⟩ := atNext
    rw [Mempool.canSealBlock, sub64_of_le sound.ordered sound.small, Bool.and_eq_true,
      decide_eq_true_eq] at canSeal
    have afterSound := sound.sealBlock canSeal.1 fits
    have added : mempool.sealBlock.next = mempool.next + 1 := mod_eq_of_lt fits
    exact ⟨afterSound, fun inRange => afterSound.takeBlock inRange (by lia) time⟩

end Mempool.Sound

/-- Blocks are pruned after they were sealed, and block numbers stay below `2 ^ 64`. -/
def Admits : Event → Prop
  | .prune number _ => number ≤ mempool.next
  | _ => mempool.next + 1 < 2 ^ 64

instance decidableAdmits : (event : Event) → Decidable (Admits mempool event)
  | .prune number _ => inferInstanceAs (Decidable (number ≤ mempool.next))
  | .insertTx .. | .produce .. => inferInstanceAs (Decidable (mempool.next + 1 < 2 ^ 64))

theorem newMempool_sound {number : BlockNumber} (fits : number < 2 ^ 64) :
    (newMempool number).Sound config where
  ordered := Nat.le_refl _
  small := fits
  blocks other := by simp [newMempool]
  room := by simp [newMempool]
  openBlock := within_empty config
  sealedBlocks := nofun

theorem Mempool.Sound.step {mempool after : Mempool} {config : Config}
    (sound : mempool.Sound config) (valid : config.Valid) {event : Event}
    (admitted : Admits mempool event) (stepped : step config mempool event = some after) :
    after.Sound config := by
  cases event with
  | insertTx tx checked waitIfFull appNonce =>
    simp only [Producer.step] at stepped
    split at stepped
    case h_1 => exact Option.some.inj stepped ▸ sound
    case h_2 inserted =>
      obtain rfl := Option.some.inj stepped
      exact sound.insertTx valid admitted inserted
  | produce =>
    obtain ⟨result, produced, rfl⟩ := map_eq_some_iff.mp stepped
    exact (sound.produce admitted produced).1
  | prune number appNonce =>
    obtain ⟨pruned, isPruned, prunedSound⟩ := sound.pruneMempool appNonce admitted
    obtain rfl := Option.some.inj (isPruned.symm.trans stepped)
    exact prunedSound

/-- While only sealed blocks are pruned, the mempool has exactly the blocks between its cursors,
no more than its capacity; every block is within the limits and can be built; pruning and
producing find the blocks they use. -/
theorem mempool_sound (config : Config) (valid : config.Valid) (number : BlockNumber)
    (fits : number < 2 ^ 64) (mempool : Mempool)
    (reached : Reaches (step config) Admits (newMempool number) mempool) :
    mempool.Sound config ∧
    (∀ spec, (spec = mempool.nextBlock ∨ ∃ sealedAt, mempool.blocks sealedAt = some spec) →
      ∀ time, ∃ payload, spec.payload time = .ok payload) ∧
    (∀ appNonce executed, executed ≤ mempool.next →
      (mempool.pruneMempool appNonce executed).isSome) ∧
    ∀ toProduce time result, mempool.next + 1 < 2 ^ 64 →
      produce config mempool toProduce time = some result → result.1.first ≤ toProduce →
      ∃ payload, result.2 = .ok payload := by
  have sound : mempool.Sound config :=
    reached.invariant (newMempool_sound config fits) fun _ _ _ sound admitted stepped =>
      sound.step valid admitted stepped
  refine ⟨sound, ?_, fun appNonce executed wasSealed => ?_, fun _ _ _ fits produced inRange =>
    (sound.produce fits produced).2 inRange⟩
  · rintro spec (rfl | ⟨sealedAt, found⟩) time
    · exact sound.openBlock.payload time
    · exact (sound.sealedBlocks sealedAt spec found).payload time
  · obtain ⟨after, pruned, _⟩ := sound.pruneMempool appNonce wasSealed
    rw [pruned]
    rfl

def oneTxConfig : Config where
  maxGasWantedPerBlock := 100
  maxGasEstimatedPerBlock := 100
  maxTxsPerBlock := 1
  allowEmptyBlocks := true

def sentBy (sender : Address) (nonce : Nat) : CheckTx where
  ok := true
  gasWanted := 50
  gasEstimated := 50
  isEVM := true
  evmSenderAddress := sender
  evmNonce := nonce
  evmHash := nonce

/-- The second transaction does not fit into the block of the first one and seals it. Both blocks
are produced, and the first one is executed. -/
theorem mempool_sound_sealed : ∃ mempool : Mempool,
    mempool.first = 8 ∧ mempool.next = 9 ∧ mempool.evmNonces 5 = some 2 ∧
    mempool.Sound oneTxConfig := by
  obtain ⟨mempool, reached, first, next, nonce⟩ : ∃ mempool,
      Reaches (step oneTxConfig) Admits (newMempool 7) mempool ∧
        mempool.first = 8 ∧ mempool.next = 9 ∧ mempool.evmNonces 5 = some 2 :=
    exists_reaches [.insertTx [1] (some (sentBy 5 0)) false fun _ => 0,
      .insertTx [2] (some (sentBy 5 1)) false fun _ => 0, .produce 7 0, .produce 8 0,
      .prune 8 fun _ => 1] (by decide +kernel)
  exact ⟨mempool, first, next, nonce, (mempool_sound oneTxConfig
    ⟨by decide, by decide, by decide⟩ 7 (by decide) mempool reached).1⟩

/-- Pruning past the sealed blocks leaves a cursor behind: there is no block below `next`, and
the next call dereferences a missing one. -/
theorem prune_past_next_panics : ∃ mempool : Mempool,
    (newMempool 0).pruneMempool (fun _ => 0) 5 = some mempool ∧
    mempool.first = 0 ∧ mempool.next = 5 ∧ mempool.blocks 0 = none ∧
    mempool.pruneMempool (fun _ => 0) 5 = none :=
  ⟨_, rfl, rfl, rfl, rfl, rfl⟩

end SeiChain.Autobahn.Producer
