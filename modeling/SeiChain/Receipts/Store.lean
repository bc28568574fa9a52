/-
This file models the receipt store on its LittDB table. The table takes requests in
order; a request's keys go to the keymap after it has been flushed, and a reopened
table keeps a prefix of the requests and repairs the keymap from their keys, newest
first, until it meets a key that the keymap has. The receipts of a block are put into
the table before its tags are committed to the index, without waiting for a flush.
-/

import SeiChain.Receipts.TagIndex
import SeiChain.Library.Transition

namespace SeiChain.Receipts

/-! ### The table -/

/-- The key of a part of a block's receipts, or of one receipt in it. -/
inductive Key where
  | part (block part : Nat)
  | tx (hash : Hash)
  deriving DecidableEq

structure Request where
  block : Nat
  part : Nat
  records : List Record
  deriving DecidableEq

/-- The keys of a request, in the order of the key file. -/
def Request.keys (request : Request) : List Key :=
  .part request.block request.part :: request.records.map fun record => .tx record.txHash

/-- The requests up to `flushed` are durable, the keys of those up to `applied` have been written
to the keymap, and those below `watermark` are collected. The keymap points to requests, and
`unflushed` has the keys that are not in it yet. -/
structure Table where
  requests : List Request
  flushed : Nat
  applied : Nat
  watermark : Nat
  keymap : Key → Option Nat
  unflushed : List Key

variable (table : Table)

namespace Table

def empty : Table where
  requests := []
  flushed := 0
  applied := 0
  watermark := 0
  keymap := fun _ => none
  unflushed := []

/-- The request that a key is read from. -/
def locate (key : Key) : Option Request :=
  if key ∈ table.unflushed then table.requests.reverse.find? fun request => key ∈ request.keys
  else (table.keymap key).bind fun index =>
    if table.watermark ≤ index then table.requests[index]? else none

def put (request : Request) : Table :=
  { table with
    requests := table.requests ++ [request]
    unflushed := table.unflushed ++ request.keys }

def bindKey (keymap : Key → Option Nat) (entry : Key × Nat) : Key → Option Nat :=
  fun key => if key = entry.1 then some entry.2 else keymap key

def bindKeys (keymap : Key → Option Nat) (entries : List (Key × Nat)) : Key → Option Nat :=
  entries.foldl bindKey keymap

def unbindKeys (keymap : Key → Option Nat) (keys : List Key) : Key → Option Nat :=
  fun key => if key ∈ keys then none else keymap key

/-- The keys of the requests in the order they were written, each with its request. -/
def keyLog (requests : List Request) : List (Key × Nat) :=
  requests.zipIdx.flatMap fun (request, index) => request.keys.map fun key => (key, index)

/-- The keys that `repairKeymap` finds missing, newest first. -/
def rescued (requests : List Request) (watermark : Nat) (keymap : Key → Option Nat) :
    List (Key × Nat) :=
  ((keyLog requests).filter fun entry => watermark ≤ entry.2).reverse.takeWhile
    fun entry => (keymap entry.1).isNone

def repairKeymap (requests : List Request) (watermark : Nat) (keymap : Key → Option Nat) :
    Key → Option Nat :=
  bindKeys keymap (rescued requests watermark keymap)

/-- The keys of the collected requests that still have their files. -/
def purgedKeys (requests : List Request) (reclaimed watermark : Nat) : List Key :=
  ((requests.take watermark).drop reclaimed).flatMap Request.keys

/-- The table that is opened with the first requests, where the files of those below `reclaimed`
are gone. -/
def reopen (survivors reclaimed : Nat) : Table :=
  let requests := table.requests.take survivors
  { requests
    flushed := survivors
    applied := survivors
    watermark := table.watermark
    keymap := unbindKeys (repairKeymap requests table.watermark table.keymap)
      (purgedKeys requests reclaimed table.watermark)
    unflushed := [] }

/-- The keymap manager writes the keys of the next request. -/
def apply (request : Request) : Table :=
  { table with
    applied := table.applied + 1
    keymap := bindKeys table.keymap (request.keys.map fun key => (key, table.applied))
    unflushed := table.unflushed.filter fun key => key ∉ request.keys }

end Table

/-! ### The store -/

structure ReceiptRecord where
  txHash : Hash
  receipt : Option Receipt
  deriving DecidableEq

/-- Put a record into the group of its block; the groups are in ascending order. -/
def insertByBlock (record : Record) : List (Nat × List Record) → List (Nat × List Record)
  | [] => [(record.receipt.blockNumber, [record])]
  | (block, records) :: rest =>
    if record.receipt.blockNumber < block then
      (record.receipt.blockNumber, [record]) :: (block, records) :: rest
    else if record.receipt.blockNumber = block then (block, records ++ [record]) :: rest
    else (block, records) :: insertByBlock record rest

def withReceipts (records : List ReceiptRecord) : List Record :=
  records.filterMap fun record => record.receipt.map fun receipt =>
    { txHash := record.txHash, receipt }

def groupReceiptRecordsByBlock (records : List ReceiptRecord) : List (Nat × List Record) :=
  (withReceipts records).foldl (fun groups record => insertByBlock record groups) []

def sortRecordsByTxIndex (records : List Record) : List Record :=
  records.insertionSort fun first second =>
    first.receipt.transactionIndex < second.receipt.transactionIndex ∨
      first.receipt.transactionIndex = second.receipt.transactionIndex ∧
        first.txHash.toNat ≤ second.txHash.toNat

/-- A call of `SetReceipts` with what it has not written yet and the tags it has staged. -/
structure Call where
  maxBlock : Nat
  groups : List (Nat × List Record)
  staged : List TagKey

/-- The store with its index. `pruning` is the height up to which `pruneBlocksBelow` has deleted
tags when it has not written the new floor yet. The application resumed at the height `resumed`
and has not finished the height `next`. -/
structure Store where
  isOpen : Bool
  table : Table
  tags : List TagKey
  latestVersion : Nat
  earliestVersion : Nat
  call : Option Call
  pruning : Option Nat
  resumed : Nat
  next : Nat

/-- A store with nothing in it, where the application begins with the given height. -/
def Store.fresh (first : Nat) : Store where
  isOpen := false
  table := .empty
  tags := []
  latestVersion := 0
  earliestVersion := 0
  call := none
  pruning := none
  resumed := first
  next := first

/-- `reopen` keeps the given number of requests, and the application goes on at `resumed`. A crash
can happen between any two of the other events. -/
inductive Event where
  | reopen (survivors reclaimed resumed : Nat)
  | setReceipts (records : List ReceiptRecord)
  | writeBlock (part : Nat)
  | commitIndex
  | flush (flushed : Nat)
  | applyKeys
  | collect
  | deleteKeys (keys : List Key)
  | pruneTags (cutoff : Nat)
  | pruneFloor
  | crash

namespace Store

variable (store : Store)

def belowRetentionFloor (block : Nat) : Bool :=
  store.earliestVersion > 0 && block < store.earliestVersion

def readReceipt (txHash : Hash) : Option Receipt :=
  (table.locate (.tx txHash)).bind fun request =>
    (request.records.find? fun record => record.txHash = txHash).map Record.receipt

def getReceiptFromStore (txHash : Hash) : Option Receipt :=
  (readReceipt store.table txHash).filter fun receipt =>
    !store.belowRetentionFloor receipt.blockNumber

def filterLogs (fromBlock toBlock : Nat) (crit : FilterCriteria) : List EthLog :=
  let toBlock := min toBlock store.latestVersion
  let fromBlock := max fromBlock store.earliestVersion
  (List.range' fromBlock (toBlock + 1 - fromBlock)).flatMap
    (blockLogs store.tags (readReceipt store.table) crit)

/-- The part that `nextPartIndex` finds is the first one that does not exist. -/
def isNextPart (block part : Nat) : Bool :=
  (table.locate (.part block part)).isNone &&
    (List.range part).all fun earlier => (table.locate (.part block earlier)).isSome

def setReceipts (records : List ReceiptRecord) : Store :=
  match groupReceiptRecordsByBlock records with
  | [] => { store with latestVersion := max store.latestVersion store.next, next := store.next + 1 }
  | groups =>
    { store with
      call := some { maxBlock := (groups.getLast?.map Prod.fst).getD 0, groups, staged := [] } }

/-- `writeBlock` for the next group; LittDB refuses a request that has a key twice. -/
def writeBlock (call : Call) (part block : Nat) (records : List Record)
    (rest : List (Nat × List Record)) : Option Store :=
  let request := { block, part, records := sortRecordsByTxIndex records }
  if isNextPart store.table block part then
    if request.keys.Nodup then
      some { store with
        table := store.table.put request
        call := some { call with
          groups := rest
          staged := call.staged ++ stageTagKeys block request.records } }
    else some { store with call := none }
  else none

def step : Event → Option Store
  | .reopen survivors reclaimed resumed =>
    if ¬ store.isOpen ∧ store.table.flushed ≤ survivors ∧
        survivors ≤ store.table.requests.length ∧ reclaimed ≤ store.table.watermark then
      some { store with
        isOpen := true, table := store.table.reopen survivors reclaimed, call := none,
        pruning := none, resumed, next := resumed }
    else none
  | .setReceipts records =>
    if store.isOpen ∧ store.call.isNone then some (store.setReceipts records) else none
  | .writeBlock part =>
    match store.isOpen, store.call with
    | true, some { maxBlock, groups := (block, records) :: rest, staged } =>
      store.writeBlock { maxBlock, groups := (block, records) :: rest, staged } part block records
        rest
    | _, _ => none
  | .commitIndex =>
    match store.isOpen, store.call with
    | true, some { maxBlock, groups := [], staged } =>
      some { store with
        tags := staged.foldl insertTagKey store.tags
        latestVersion := max store.latestVersion maxBlock
        call := none
        next := store.next + 1 }
    | _, _ => none
  | .flush flushed =>
    if store.isOpen ∧ store.table.flushed ≤ flushed ∧ flushed ≤ store.table.requests.length then
      some { store with table := { store.table with flushed } }
    else none
  | .applyKeys =>
    if store.isOpen ∧ store.table.applied < store.table.flushed then
      (store.table.requests[store.table.applied]?).map fun request =>
        { store with table := store.table.apply request }
    else none
  | .collect =>
    -- `gcFilter` lets go of a part that is below the floor.
    (store.table.requests[store.table.watermark]?).bind fun request =>
      if store.isOpen ∧ store.table.watermark < store.table.flushed ∧
          store.belowRetentionFloor request.block then
        some { store with
          table := { store.table with watermark := store.table.watermark + 1 } }
      else none
  | .deleteKeys keys =>
    if store.isOpen ∧ ∀ key ∈ keys, key ∈ purgedKeys store then
      some { store with
        table := { store.table with keymap := Table.unbindKeys store.table.keymap keys } }
    else none
  | .pruneTags cutoff =>
    let cutoff := min cutoff store.latestVersion
    if store.isOpen ∧ store.pruning.isNone ∧ store.earliestVersion < cutoff then
      some { store with
        tags := store.tags.filter fun key =>
          ¬ (store.earliestVersion ≤ key.block ∧ key.block < cutoff)
        pruning := some cutoff }
    else none
  | .pruneFloor =>
    if store.isOpen then
      store.pruning.map fun cutoff => { store with earliestVersion := cutoff, pruning := none }
    else none
  | .crash => if store.isOpen then some { store with isOpen := false } else none
where
  purgedKeys (store : Store) : List Key :=
    Table.purgedKeys store.table.requests 0 store.table.watermark

end Store

end SeiChain.Receipts
