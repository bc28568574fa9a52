/-
This file models the tag index of the receipt store: one key for every address and
topic of every log of a block, which names the transaction. A query intersects the
transactions that the keys of each part of the criteria name, reads their receipts
and matches every log again, so a log is found if its keys are in the index and its
receipt can be read.
-/

import Mathlib.Data.List.Sort
import SeiChain.Library.ByteOrder

namespace SeiChain.Receipts

open Library List

abbrev Hash := BitVec 256

abbrev Address := BitVec 160

structure Log where
  address : Address
  topics : List Hash
  data : Bytes
  index : Nat
  deriving DecidableEq

structure Receipt where
  blockNumber : Nat
  transactionIndex : Nat
  txHash : Hash
  logs : List Log
  deriving DecidableEq

structure Record where
  txHash : Hash
  receipt : Receipt
  deriving DecidableEq

/-- A log as it is returned to a caller. -/
structure EthLog where
  address : Address
  topics : List Hash
  data : Bytes
  blockNumber : Nat
  txHash : Hash
  txIndex : Nat
  index : Nat
  deriving DecidableEq

def convertLog (log : Log) (receipt : Receipt) (logStartIndex : Nat) : EthLog where
  address := log.address
  topics := log.topics
  data := log.data
  blockNumber := receipt.blockNumber
  txHash := receipt.txHash
  txIndex := receipt.transactionIndex
  index := log.index + logStartIndex

structure FilterCriteria where
  addresses : List Address
  topics : List (List Hash)

def matchLog (log : EthLog) (crit : FilterCriteria) : Bool :=
  (crit.addresses.isEmpty || crit.addresses.contains log.address) &&
    crit.topics.zipIdx.all fun (topicList, position) =>
      topicList.isEmpty || (log.topics[position]?).any topicList.contains

/-! ### Keys -/

/-- The kind byte and the tag of a key. -/
inductive Tag where
  | address (address : Address)
  | topic (position : Nat) (topic : Hash)
  deriving DecidableEq

structure TagRef where
  firstLogIndex : Nat
  txHash : Hash
  deriving DecidableEq

structure TagKey where
  block : Nat
  tag : Tag
  txIndex : Nat
  ref : TagRef
  deriving DecidableEq

/-- The fields of a key from left to right; they have fixed widths, so this is its byte order. -/
def TagKey.fields (key : TagKey) : List Nat :=
  key.block :: (match key.tag with
    | .address address => [0, address.toNat]
    | .topic position topic => [position + 1, topic.toNat]) ++
      [key.txIndex, key.ref.firstLogIndex, key.ref.txHash.toNat]

def maxIndexedTopics : Nat := 4

def logTags (log : Log) : List Tag :=
  .address log.address ::
    ((log.topics.take maxIndexedTopics).zipIdx.map fun (topic, position) => .topic position topic)

/-- The records of a block with the number of logs before each. -/
def withLogStarts : Nat → List Record → List (Record × Nat)
  | _, [] => []
  | firstLogIndex, record :: rest =>
    (record, firstLogIndex) ::
      withLogStarts ((firstLogIndex + record.receipt.logs.length) % 2 ^ 32) rest

def recordTagKeys (block : Nat) (entry : Record × Nat) : List TagKey :=
  entry.1.receipt.logs.flatMap fun log => (logTags log).map fun tag =>
    { block, tag, txIndex := entry.1.receipt.transactionIndex
      ref := { firstLogIndex := entry.2, txHash := entry.1.txHash } }

def stageTagKeys (block : Nat) (records : List Record) : List TagKey :=
  (withLogStarts 0 records).flatMap (recordTagKeys block)

variable (tags : List TagKey)

/-- The index holds its keys in byte order, each once. -/
def insertTagKey (key : TagKey) : List TagKey :=
  if key ∈ tags then tags else tags.orderedInsert (fun first second => first.fields ≤ second.fields) key

/-! ### Queries -/

def criteriaTagGroups (crit : FilterCriteria) : List (List Tag) :=
  (if crit.addresses.isEmpty then [] else [crit.addresses.map Tag.address]) ++
    crit.topics.zipIdx.filterMap fun (topicList, position) =>
      if maxIndexedTopics ≤ position ∨ topicList = [] then none
      else some (topicList.map (Tag.topic position))

/-- The map from transactions to what the index knows of them. -/
abbrev Candidates := List (Nat × TagRef)

def Candidates.set (candidates : Candidates) (txIndex : Nat) (ref : TagRef) : Candidates :=
  (txIndex, ref) :: candidates.filter fun entry => entry.1 ≠ txIndex

def scanTagRange (inRange : TagKey → Bool) (candidates : Candidates) : Candidates :=
  (tags.filter inRange).foldl (fun found key => found.set key.txIndex key.ref) candidates

/-- One step of the intersection, which goes on with the smaller set. -/
def intersect (result other : Candidates) : Candidates :=
  let keep (smaller larger : Candidates) :=
    smaller.filter fun entry => larger.any fun another => another.1 = entry.1
  if other.length < result.length then keep other result else keep result other

def groupCandidates (block : Nat) (group : List Tag) : Candidates :=
  group.foldl (fun found tag =>
    scanTagRange tags (fun key => key.block = block ∧ key.tag = tag) found) []

def Tag.isAddress : Tag → Bool
  | address _ => true
  | topic _ _ => false

def blockTagCandidates (block : Nat) : List (List Tag) → Candidates
  | [] => scanTagRange tags (fun key => key.block = block ∧ key.tag.isAddress = true) []
  | group :: groups =>
    (groups.map (groupCandidates tags block)).foldl intersect (groupCandidates tags block group)

def candidateBlockLogs (read : Hash → Option Receipt) (crit : FilterCriteria)
    (candidates : Candidates) : List EthLog :=
  (candidates.insertionSort fun first second => first.1 ≤ second.1).flatMap fun entry =>
    match read entry.2.txHash with
    | none => []
    | some receipt =>
      (receipt.logs.map fun log => convertLog log receipt entry.2.firstLogIndex).filter
        fun log => matchLog log crit

def blockLogs (read : Hash → Option Receipt) (crit : FilterCriteria) (block : Nat) : List EthLog :=
  candidateBlockLogs read crit (blockTagCandidates tags block (criteriaTagGroups crit))

/-! ### A query finds what is indexed -/

/-- The index has the keys of the block's records and no others for the block. -/
structure Indexed (block : Nat) (records : List Record) : Prop where
  staged : ∀ key ∈ stageTagKeys block records, key ∈ tags
  only : ∀ key ∈ tags, key.block = block → key ∈ stageTagKeys block records

variable {tags : List TagKey} {block : Nat} {records : List Record} {key : TagKey}

theorem mem_insertTagKey {other : TagKey} :
    other ∈ insertTagKey tags key ↔ other = key ∨ other ∈ tags := by
  rw [insertTagKey]
  split
  next member =>
    refine ⟨.inr, fun either => ?_⟩
    rcases either with rfl | old
    · exact member
    · exact old
  next => exact mem_orderedInsert _

variable {entry : Record × Nat}

theorem fst_mem_of_mem_withLogStarts {first : Nat}
    (member : entry ∈ withLogStarts first records) : entry.1 ∈ records := by
  induction records generalizing first with
  | nil => cases member
  | cons record rest ih =>
    rcases mem_cons.mp member with rfl | later
    · exact .head _
    · exact .tail _ (ih later)

/-- The transaction indices tell the entries of a block apart. -/
theorem eq_of_txIndex_eq {first : Nat} {other : Record × Nat}
    (distinct : (records.map (·.receipt.transactionIndex)).Nodup)
    (member : entry ∈ withLogStarts first records) (otherMember : other ∈ withLogStarts first records)
    (same : entry.1.receipt.transactionIndex = other.1.receipt.transactionIndex) :
    entry = other := by
  induction records generalizing first with
  | nil => cases member
  | cons record rest ih =>
    obtain ⟨fresh, distinctRest⟩ := nodup_cons.mp distinct
    have differs : ∀ later ∈ withLogStarts ((first + record.receipt.logs.length) % 2 ^ 32) rest,
        later.1.receipt.transactionIndex ≠ record.receipt.transactionIndex :=
      fun later laterMember equal =>
        fresh (mem_map.mpr ⟨later.1, fst_mem_of_mem_withLogStarts laterMember, equal⟩)
    rcases mem_cons.mp member with rfl | later <;>
      rcases mem_cons.mp otherMember with rfl | otherLater
    · rfl
    · exact absurd same.symm (differs other otherLater)
    · exact absurd same (differs entry later)
    · exact ih distinctRest later otherLater

theorem mem_stageTagKeys :
    key ∈ stageTagKeys block records ↔ ∃ entry ∈ withLogStarts 0 records,
      key.block = block ∧ key.txIndex = entry.1.receipt.transactionIndex ∧
      key.ref = { firstLogIndex := entry.2, txHash := entry.1.txHash } ∧
      ∃ log ∈ entry.1.receipt.logs, key.tag ∈ logTags log := by
  simp only [stageTagKeys, recordTagKeys, mem_flatMap, mem_map]
  refine exists_congr fun entry => and_congr_right fun _ => ⟨?_, ?_⟩
  · rintro ⟨log, logMember, tag, tagMember, rfl⟩
    exact ⟨rfl, rfl, rfl, log, logMember, tagMember⟩
  · rintro ⟨sameBlock, sameIndex, sameRef, log, logMember, tagMember⟩
    exact ⟨log, logMember, key.tag, tagMember, by rw [← sameBlock, ← sameIndex, ← sameRef]⟩

/-- The candidates of a block only have what the block's records say. -/
def Candidates.Right (candidates : Candidates) (records : List Record) : Prop :=
  ∀ found ∈ candidates, ∃ entry ∈ withLogStarts 0 records,
    found = (entry.1.receipt.transactionIndex,
      { firstLogIndex := entry.2, txHash := entry.1.txHash })

def Candidates.Has (candidates : Candidates) (txIndex : Nat) : Prop :=
  ∃ ref, (txIndex, ref) ∈ candidates

variable {txIndex : Nat} {candidates : Candidates}

theorem Candidates.Has.set (has : candidates.Has txIndex) (other : Nat) (ref : TagRef) :
    (candidates.set other ref).Has txIndex := by
  by_cases same : txIndex = other
  · exact ⟨ref, same ▸ .head _⟩
  · obtain ⟨known, member⟩ := has
    exact ⟨known, .tail _ (mem_filter.mpr ⟨member, by simpa using same⟩)⟩

variable {inRange : TagKey → Bool}

theorem scanTagRange_right
    (indexed : Indexed tags block records) (ofBlock : ∀ key, inRange key = true → key.block = block)
    (right : candidates.Right records) : (scanTagRange tags inRange candidates).Right records := by
  refine List.foldlRecOn (motive := fun found => Candidates.Right found records) _ _ right ?_
  intro found held key member entry entryMember
  obtain ⟨keyMember, ranged⟩ := mem_filter.mp member
  rcases mem_cons.mp entryMember with rfl | old
  · obtain ⟨origin, originMember, _, sameIndex, sameRef, _⟩ :=
      mem_stageTagKeys.mp (indexed.only key keyMember (ofBlock key ranged))
    exact ⟨origin, originMember, by rw [sameIndex, sameRef]⟩
  · exact held entry (mem_filter.mp old).1

theorem scanTagRange_keeps
    (has : candidates.Has txIndex) : (scanTagRange tags inRange candidates).Has txIndex :=
  List.foldlRecOn (motive := fun found => Candidates.Has found txIndex) _ _ has
    fun _ held key _ => held.set key.txIndex key.ref

theorem scanTagRange_finds (candidates : Candidates)
    (member : key ∈ tags) (ranged : inRange key = true) :
    (scanTagRange tags inRange candidates).Has key.txIndex := by
  obtain ⟨before, later, split⟩ := append_of_mem (mem_filter.mpr ⟨member, ranged⟩)
  rw [scanTagRange, split, foldl_append, foldl_cons]
  exact List.foldlRecOn (motive := fun found => Candidates.Has found key.txIndex) _ _
    ⟨key.ref, .head _⟩ fun _ held other _ => held.set other.txIndex other.ref

theorem groupCandidates_right (indexed : Indexed tags block records) (group : List Tag) :
    (groupCandidates tags block group).Right records :=
  List.foldlRecOn (motive := fun found => Candidates.Right found records) _ _
    (nofun) fun _ held _ _ =>
      scanTagRange_right indexed (fun _ ranged => (of_decide_eq_true ranged).1) held

theorem groupCandidates_finds {group : List Tag} (member : key ∈ tags)
    (ofBlock : key.block = block) (inGroup : key.tag ∈ group) :
    (groupCandidates tags block group).Has key.txIndex := by
  obtain ⟨-, -, rfl⟩ := append_of_mem inGroup
  rw [groupCandidates, foldl_append, foldl_cons]
  refine List.foldlRecOn (motive := fun found => Candidates.Has found key.txIndex) _ _ ?_
    fun _ held _ _ => scanTagRange_keeps held
  exact scanTagRange_finds _ member (decide_eq_true ⟨ofBlock, rfl⟩)

theorem intersect_right {result other : Candidates} (right : result.Right records)
    (otherRight : other.Right records) : (intersect result other).Right records := by
  intro entry member
  rw [intersect] at member
  split at member
  · exact otherRight entry (mem_filter.mp member).1
  · exact right entry (mem_filter.mp member).1

theorem intersect_has {result other : Candidates} (has : result.Has txIndex)
    (otherHas : other.Has txIndex) : (intersect result other).Has txIndex := by
  obtain ⟨ref, member⟩ := has
  obtain ⟨otherRef, otherMember⟩ := otherHas
  rw [intersect]
  split
  · exact ⟨otherRef, mem_filter.mpr ⟨otherMember, any_eq_true.mpr ⟨_, member, by simp⟩⟩⟩
  · exact ⟨ref, mem_filter.mpr ⟨member, any_eq_true.mpr ⟨_, otherMember, by simp⟩⟩⟩

theorem blockTagCandidates_right (indexed : Indexed tags block records) (groups : List (List Tag)) :
    (blockTagCandidates tags block groups).Right records := by
  cases groups with
  | nil =>
    exact scanTagRange_right indexed (fun _ ranged => (of_decide_eq_true ranged).1) nofun
  | cons group groups =>
    refine List.foldlRecOn (motive := fun found => Candidates.Right found records) _ _
      (groupCandidates_right indexed group) fun _ held other member => ?_
    obtain ⟨another, _, rfl⟩ := mem_map.mp member
    exact intersect_right held (groupCandidates_right indexed another)

/-- A transaction that has a key for every group is a candidate. -/
theorem blockTagCandidates_finds {groups : List (List Tag)}
    (named : ∃ key ∈ tags, key.block = block ∧ key.txIndex = txIndex ∧ key.tag.isAddress = true)
    (inGroups : ∀ group ∈ groups, ∃ key ∈ tags, key.block = block ∧ key.txIndex = txIndex ∧
      key.tag ∈ group) : (blockTagCandidates tags block groups).Has txIndex := by
  have each : ∀ group ∈ groups, (groupCandidates tags block group).Has txIndex := by
    intro group member
    obtain ⟨key, keyMember, ofBlock, rfl, inGroup⟩ := inGroups group member
    exact groupCandidates_finds keyMember ofBlock inGroup
  cases groups with
  | nil =>
    obtain ⟨key, keyMember, ofBlock, rfl, isAddress⟩ := named
    exact scanTagRange_finds _ keyMember (decide_eq_true ⟨ofBlock, isAddress⟩)
  | cons group groups =>
    refine List.foldlRecOn (motive := fun found => Candidates.Has found txIndex) _ _
      (each group mem_cons_self) fun _ held other member => ?_
    obtain ⟨another, anotherMember, rfl⟩ := mem_map.mp member
    exact intersect_has held (each another (.tail _ anotherMember))

variable {log : Log}

theorem topic_mem_logTags {position : Nat} {topic : Hash}
    (indexed : position < maxIndexedTopics) (found : log.topics[position]? = some topic) :
    Tag.topic position topic ∈ logTags log := by
  refine .tail _ (mem_map.mpr ⟨(topic, position), ?_, rfl⟩)
  rw [mk_mem_zipIdx_iff_getElem?, getElem?_take, if_pos indexed]
  exact found

/-- A log that matches has a tag in every group of the criteria. -/
theorem tag_mem_of_matchLog {receipt : Receipt} {start : Nat} {crit : FilterCriteria}
    (matched : matchLog (convertLog log receipt start) crit = true) :
    ∀ group ∈ criteriaTagGroups crit, ∃ tag ∈ logTags log, tag ∈ group := by
  obtain ⟨addressMatches, topicsMatch⟩ := Bool.and_eq_true_iff.mp matched
  intro group member
  rcases mem_append.mp member with ofAddresses | ofTopics
  · split at ofAddresses
    next => exact absurd ofAddresses not_mem_nil
    next nonempty =>
      rw [mem_singleton] at ofAddresses
      subst ofAddresses
      refine ⟨.address log.address, .head _, mem_map.mpr ⟨log.address, ?_, rfl⟩⟩
      simpa [nonempty, convertLog] using addressMatches
  · obtain ⟨⟨topicList, position⟩, listMember, chosen⟩ := mem_filterMap.mp ofTopics
    obtain ⟨constrained, same⟩ := Option.ite_none_left_eq_some.mp chosen
    rw [not_or, not_le] at constrained
    cases same
    have this := all_eq_true.mp topicsMatch _ listMember
    obtain ⟨topic, found, isIn⟩ : ∃ topic, log.topics[position]? = some topic ∧
        topic ∈ topicList := by
      simpa [constrained.2, convertLog, Option.any_eq_true] using this
    exact ⟨.topic position topic, topic_mem_logTags constrained.1 found,
      mem_map.mpr ⟨topic, isIn, rfl⟩⟩

/-- A matching log of an indexed record is found if the record can be read. -/
theorem mem_blockLogs {read : Hash → Option Receipt} {crit : FilterCriteria}
    (indexed : Indexed tags block records)
    (distinct : (records.map (·.receipt.transactionIndex)).Nodup)
    (member : entry ∈ withLogStarts 0 records) (logMember : log ∈ entry.1.receipt.logs)
    (readable : read entry.1.txHash = some entry.1.receipt)
    (matched : matchLog (convertLog log entry.1.receipt entry.2) crit = true) :
    convertLog log entry.1.receipt entry.2 ∈ blockLogs tags read crit block := by
  have named : ∀ tag ∈ logTags log, ∃ key ∈ tags, key.block = block ∧
      key.txIndex = entry.1.receipt.transactionIndex ∧ key.tag = tag := by
    intro tag tagMember
    refine ⟨⟨block, tag, entry.1.receipt.transactionIndex, entry.2, entry.1.txHash⟩,
      indexed.staged _ ?_, rfl, rfl, rfl⟩
    exact mem_stageTagKeys.mpr ⟨entry, member, rfl, rfl, rfl, log, logMember, tagMember⟩
  obtain ⟨ref, candidate⟩ : (blockTagCandidates tags block (criteriaTagGroups crit)).Has
      entry.1.receipt.transactionIndex := by
    refine blockTagCandidates_finds ?_ fun group groupMember => ?_
    · obtain ⟨key, keyMember, ofBlock, sameIndex, isTag⟩ := named _ mem_cons_self
      exact ⟨key, keyMember, ofBlock, sameIndex, isTag ▸ rfl⟩
    · obtain ⟨tag, tagMember, inGroup⟩ := tag_mem_of_matchLog matched group groupMember
      obtain ⟨key, keyMember, ofBlock, sameIndex, isTag⟩ := named tag tagMember
      exact ⟨key, keyMember, ofBlock, sameIndex, isTag ▸ inGroup⟩
  obtain ⟨origin, originMember, same⟩ := blockTagCandidates_right indexed _ _ candidate
  have sameEntry : entry = origin :=
    eq_of_txIndex_eq distinct member originMember (congrArg Prod.fst same)
  rw [blockLogs, candidateBlockLogs, mem_flatMap]
  refine ⟨_, (mem_insertionSort _).mpr candidate, ?_⟩
  have sameRef : ref = { firstLogIndex := entry.2, txHash := entry.1.txHash } :=
    (congrArg Prod.snd same).trans (sameEntry ▸ rfl)
  rw [sameRef]
  simp only [readable]
  exact mem_filter.mpr ⟨mem_map_of_mem logMember, matched⟩

end SeiChain.Receipts
