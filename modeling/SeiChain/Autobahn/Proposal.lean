/-
This file models what consensus messages are about: views and epochs, lane and
global ranges, and the tipcut proposal with its structural checks. Block, road
and view numbers are 64-bit in the source; here they are natural numbers and
every operation that can leave 64 bits says so. A proposal holds its lane ranges
as a list that is sorted by lane, which is the form that is hashed and signed.
The blocks of a lane carry the bounds that `PayloadBuilder.Build` checks.
-/

import SeiChain.Autobahn.Committee
import SeiChain.Library.Simulation

namespace SeiChain.Autobahn

open Library List

abbrev RoadIndex := Nat
abbrev ViewNumber := Nat
abbrev EpochIndex := Nat
abbrev BlockNumber := Nat
abbrev GlobalBlockNumber := Nat

/-- Hashes of headers and payloads as numbers; the zero hash is `0`. -/
abbrev BlockHeaderHash := Nat
abbrev PayloadHash := Nat

/-- A point in time, in nanoseconds since the start of year `1`. -/
abbrev Timestamp := Int

/-- Addition in 64 bits. -/
def add64 (first second : Nat) : Nat := (first + second) % 2 ^ 64

/-- Subtraction in 64 bits. -/
def sub64 (first second : Nat) : Nat := (first + 2 ^ 64 - second) % 2 ^ 64

theorem sub64_of_le {first second : Nat} (atMost : second ≤ first) (fits : first < 2 ^ 64) :
    sub64 first second = first - second := by
  unfold sub64
  omega

/-- The signed 64-bit number that a result wraps around to. -/
def wrapInt64 (number : Int) : Int := (number + 2 ^ 63) % 2 ^ 64 - 2 ^ 63

def nanosPerSecond : Int := 1000000000

/-- The seconds of a time are an `int64`; a sum that does not fit stops at its ends. -/
def saturateSeconds (seconds : Int) : Int :=
  if 2 ^ 63 - 1 < seconds then 2 ^ 63 - 1
  else if seconds < -2 ^ 63 then -(2 ^ 63 - 1)
  else seconds

/-- `Time.Add`: the nanoseconds within the second carry into the seconds, and stay as they are
where the seconds saturate. -/
def addDuration (time : Timestamp) (duration : Int) : Timestamp :=
  let nanos := time % nanosPerSecond + duration
  saturateSeconds (time / nanosPerSecond + nanos / nanosPerSecond) * nanosPerSecond +
    nanos % nanosPerSecond

/-! ### Errors of the checks -/

/-- What the `Verify` functions report, with the values that the messages print. -/
inductive VerifyError where
  | epochIndex (got want : EpochIndex)
  | roadIndex (got first last : RoadIndex)
  | emptyTipcut
  | notALane (lane : LaneID)
  | invalidRange (first next : BlockNumber)
  | nonZeroHash
  | laneRangeLen (lane : LaneID) (got : Nat)
  | notAReplica (key : PublicKey)
  | badSignature (key : PublicKey)
  | duplicateSignature (key : PublicKey)
  | duplicateVote (key : PublicKey)
  | signaturesWeight (got want : Nat)
  | votesWeight (got want : Nat)
  | missingLatestPrepareQC
  | unnecessaryLatestPrepareQC
  | latestPrepareQCView
  | timeoutQCIndex (got want : RoadIndex)
  | voteView (key : PublicKey)
  | wrongView
  | globalFirst (got want : GlobalBlockNumber)
  | timestamp (got wantMin : Timestamp)
  | proposer (got : PublicKey) (want : Option PublicKey)
  | inconsistentTimeoutQC
  | unnecessaryReproposalData
  | wantReproposal
  | laneRangeFirst (lane : LaneID) (got want : BlockNumber)
  | missingLaneQC (lane : LaneID)
  | laneQCNumber (lane : LaneID) (got want : BlockNumber)
  | laneQCHash (lane : LaneID) (got want : BlockHeaderHash)
  | appLower
  | unnecessaryAppQC
  | appEpochIndex (got want : EpochIndex)
  | missingAppQC
  | appQCMismatch
  | appQCNumber (got finalized : GlobalBlockNumber)
  | payloadHash (got want : PayloadHash)
  | headersLen (got : Nat) (want : Int)
  | headerHash (index : Nat) (got want : BlockHeaderHash)
  /-- Not an error of the source: it reads past the end of the headers and panics. -/
  | headerOutOfRange (index : Nat)
  /-- An error of a part, with the words the caller puts before it. -/
  | within (part : String) (error : VerifyError)
  deriving DecidableEq, Repr

abbrev Check := Except VerifyError Unit

/-- Report `error` unless `condition` holds. -/
def ensure (condition : Prop) [Decidable condition] (error : VerifyError) : Check :=
  if condition then .ok () else .error error

/-- Put the caller's words before an error of a part. -/
def inPart (part : String) (check : Check) : Check := check.mapError (.within part)

@[simp]
theorem ensure_eq_ok {condition : Prop} [Decidable condition] {error : VerifyError} :
    ensure condition error = .ok () ↔ condition := by
  unfold ensure
  split <;> simp_all

@[simp]
theorem inPart_eq_ok {part : String} {check : Check} :
    inPart part check = .ok () ↔ check = .ok () := by
  cases check <;> simp [inPart, Except.mapError]

@[simp]
theorem check_bind_eq_ok {Second : Type} {first : Check} {next : Except VerifyError Second}
    {result : Second} :
    (first >>= fun _ => next) = .ok result ↔ first = .ok () ∧ next = .ok result := by
  rw [exceptBind_eq_ok]
  constructor
  · rintro ⟨_, done, rest⟩
    exact ⟨done, rest⟩
  · rintro ⟨done, rest⟩
    exact ⟨(), done, rest⟩

/-- Check the elements of a list one after the other. -/
def checkAll {Element : Type} (check : Element → Check) : List Element → Check
  | [] => .ok ()
  | element :: rest => do
    check element
    checkAll check rest

@[simp]
theorem checkAll_eq_ok {Element : Type} {check : Element → Check} {elements : List Element} :
    checkAll check elements = .ok () ↔ ∀ element ∈ elements, check element = .ok () := by
  induction elements with
  | nil => simp [checkAll]
  | cons element rest ih => simp [checkAll, ih]

/-! ### Epochs and views -/

/-- The roads from `first` to `last`, both included. -/
structure RoadRange where
  first : RoadIndex
  last : RoadIndex
  deriving DecidableEq, Repr

def RoadRange.has (roads : RoadRange) (index : RoadIndex) : Bool :=
  roads.first ≤ index && index ≤ roads.last

structure Epoch where
  epochIndex : EpochIndex
  roads : RoadRange
  firstTimestamp : Timestamp
  committee : Committee
  firstBlock : GlobalBlockNumber

/-- The epoch `NewRegistry` starts with, which covers all roads. -/
def genesisEpoch (committee : Committee) (firstBlock : GlobalBlockNumber)
    (genesisTimestamp : Timestamp) : Epoch where
  epochIndex := 0
  roads := { first := 0, last := 2 ^ 64 - 1 }
  firstTimestamp := genesisTimestamp
  committee := committee
  firstBlock := firstBlock

structure View where
  index : RoadIndex
  number : ViewNumber
  epochIndex : EpochIndex
  deriving DecidableEq, Repr

namespace View

def less (view other : View) : Bool :=
  if view.epochIndex ≠ other.epochIndex then view.epochIndex < other.epochIndex
  else if view.index ≠ other.index then view.index < other.index
  else view.number < other.number

def next (view : View) : View := { view with number := add64 view.number 1 }

def verify (view : View) (epoch : Epoch) : Check := do
  ensure (view.epochIndex = epoch.epochIndex) (.epochIndex view.epochIndex epoch.epochIndex)
  ensure (epoch.roads.has view.index) (.roadIndex view.index epoch.roads.first epoch.roads.last)

variable {first second : View}

theorem less_iff : first.less second = true ↔
    first.epochIndex < second.epochIndex ∨ first.epochIndex = second.epochIndex ∧
      (first.index < second.index ∨ first.index = second.index ∧ first.number < second.number) := by
  unfold less
  split
  · simp_all
  · split
    · simp_all
    · simp_all

theorem less_trans {third : View} (one : first.less second = true)
    (two : second.less third = true) : first.less third = true := by
  rw [less_iff] at *
  lia

theorem less_of_not_less {third : View} (atMost : first.less second = false)
    (less : first.less third = true) : second.less third = true := by
  rw [← Bool.not_eq_true] at atMost
  rw [less_iff] at *
  lia

theorem not_less_self (view : View) : view.less view = false := by
  unfold less
  simp

end View

/-! ### Headers and ranges -/

structure BlockHeader where
  lane : LaneID
  blockNumber : BlockNumber
  parentHash : BlockHeaderHash
  payloadHash : PayloadHash
  deriving DecidableEq, Repr

/-- The blocks `[first, next)` of a lane, with the hash of the last one. -/
structure LaneRange where
  lane : LaneID
  first : BlockNumber
  next : BlockNumber
  lastHash : BlockHeaderHash
  deriving DecidableEq, Repr

/-- The most blocks a proposal may advance a lane by. -/
def maxLaneRangeInProposal : Nat := 10

namespace LaneRange

/-- The range that holds no block. -/
def empty (lane : LaneID) (first : BlockNumber) : LaneRange :=
  { lane := lane, first := first, next := first, lastHash := 0 }

def len (range : LaneRange) : Nat := sub64 range.next range.first

def verify (range : LaneRange) (committee : Committee) : Check := do
  ensure (committee.hasLane range.lane) (.notALane range.lane)
  ensure (range.first ≤ range.next) (.invalidRange range.first range.next)
  ensure (¬ (range.first = range.next ∧ range.lastHash ≠ 0)) .nonZeroHash

end LaneRange

structure GlobalRange where
  first : GlobalBlockNumber
  next : GlobalBlockNumber
  deriving DecidableEq, Repr

def GlobalRange.len (range : GlobalRange) : Nat := sub64 range.next range.first

def GlobalRange.has (range : GlobalRange) (number : GlobalBlockNumber) : Bool :=
  range.first ≤ number && number < range.next

theorem GlobalRange.has_iff {range : GlobalRange} {number : GlobalBlockNumber} :
    range.has number = true ↔ range.first ≤ number ∧ number < range.next := by
  rw [GlobalRange.has, Bool.and_eq_true, decide_eq_true_eq, decide_eq_true_eq]

/-! ### Maps of lane ranges -/

/-- A map from lanes to their ranges, in the order of the lanes. -/
@[ext]
structure LaneRangeMap where
  ranges : List LaneRange
  sorted : ranges.Pairwise fun first second => first.lane < second.lane
  deriving DecidableEq

/-- Put a range under its lane, in place of the one that is there. -/
def insertLaneRange (range : LaneRange) : List LaneRange → List LaneRange
  | [] => [range]
  | first :: rest =>
    if range.lane < first.lane then range :: first :: rest
    else if range.lane = first.lane then range :: rest
    else first :: insertLaneRange range rest

variable {range : LaneRange} {ranges : List LaneRange}

theorem mem_insertLaneRange {other : LaneRange}
    (member : other ∈ insertLaneRange range ranges) : other = range ∨ other ∈ ranges := by
  induction ranges with
  | nil => simpa [insertLaneRange] using member
  | cons first rest ih =>
    unfold insertLaneRange at member
    split at member
    · simpa using member
    · split at member
      · rcases mem_cons.mp member with same | later
        · exact .inl same
        · exact .inr (.tail _ later)
      · rcases mem_cons.mp member with same | later
        · exact .inr (by simp [same])
        · rcases ih later with same | old
          · exact .inl same
          · exact .inr (.tail _ old)

theorem sorted_insertLaneRange
    (sorted : ranges.Pairwise fun first second => first.lane < second.lane) :
    (insertLaneRange range ranges).Pairwise fun first second => first.lane < second.lane := by
  induction ranges with
  | nil => simp [insertLaneRange]
  | cons first rest ih =>
    obtain ⟨below, sortedRest⟩ := pairwise_cons.mp sorted
    unfold insertLaneRange
    split
    case isTrue less =>
      refine pairwise_cons.mpr ⟨fun other member => ?_, sorted⟩
      rcases mem_cons.mp member with rfl | later
      · exact less
      · exact lt_trans less (below other later)
    case isFalse notLess =>
      split
      case isTrue same =>
        exact pairwise_cons.mpr ⟨fun other member => same ▸ below other member, sortedRest⟩
      case isFalse different =>
        refine pairwise_cons.mpr ⟨fun other member => ?_, ih sortedRest⟩
        rcases mem_insertLaneRange member with rfl | old
        · exact lt_of_le_of_ne (not_lt.mp notLess) (Ne.symm different)
        · exact below other old

namespace LaneRangeMap

def empty : LaneRangeMap where
  ranges := []
  sorted := List.Pairwise.nil

variable (map : LaneRangeMap)

def insert (range : LaneRange) : LaneRangeMap where
  ranges := insertLaneRange range map.ranges
  sorted := sorted_insertLaneRange map.sorted

/-- The map that a list of ranges builds, where a later range replaces an earlier one of the
same lane. -/
def ofList (ranges : List LaneRange) : LaneRangeMap := ranges.foldl insert empty

def get (lane : LaneID) : Option LaneRange := map.ranges.find? fun range => range.lane = lane

theorem insertLaneRange_last (below : ∀ other ∈ ranges, other.lane < range.lane) :
    insertLaneRange range ranges = ranges ++ [range] := by
  induction ranges with
  | nil => rfl
  | cons first rest ih =>
    have firstBelow := below first mem_cons_self
    have notLess : ¬ range.lane < first.lane := Nat.lt_asymm firstBelow
    have different : range.lane ≠ first.lane := ne_of_gt firstBelow
    rw [insertLaneRange, if_neg notLess, if_neg different, cons_append,
      ih fun other member => below other (.tail _ member)]

/-- Building a map from the ranges of a map gives the map back. -/
theorem ofList_ranges : ofList map.ranges = map := by
  have extend : ∀ (ranges : List LaneRange) (start : LaneRangeMap),
      (start.ranges ++ ranges).Pairwise (fun first second => first.lane < second.lane) →
      (ranges.foldl insert start).ranges = start.ranges ++ ranges := by
    intro ranges
    induction ranges with
    | nil => simp
    | cons range rest ih =>
      intro start sorted
      have below : ∀ other ∈ start.ranges, other.lane < range.lane := fun other member =>
        (pairwise_append.mp sorted).2.2 other member range mem_cons_self
      have inserted : (start.insert range).ranges = start.ranges ++ [range] :=
        insertLaneRange_last below
      rw [foldl_cons, ih, inserted, append_assoc, singleton_append]
      rw [inserted, append_assoc]
      exact sorted
  exact LaneRangeMap.ext (extend map.ranges empty map.sorted)

end LaneRangeMap

/-! ### Proposals -/

/-- A state hash for a finalized global block. -/
structure AppProposal where
  globalNumber : GlobalBlockNumber
  roadIndex : RoadIndex
  appHash : Bytes
  epochIndex : EpochIndex
  deriving DecidableEq, Repr

def AppProposal.next (app : AppProposal) : RoadIndex := add64 app.roadIndex 1

/-- The road tipcut proposal. The source also stores the end of the global range, which
`newProposal` computes from the other fields. -/
structure Proposal where
  view : View
  timestamp : Timestamp
  laneRanges : LaneRangeMap
  app : Option AppProposal
  globalFirst : GlobalBlockNumber
  deriving DecidableEq

def newProposal (view : View) (timestamp : Timestamp) (laneRanges : List LaneRange)
    (app : Option AppProposal) (globalFirst : GlobalBlockNumber) : Proposal where
  view := view
  timestamp := timestamp
  laneRanges := .ofList laneRanges
  app := app
  globalFirst := globalFirst

/-- The minimal difference between the timestamps of consecutive blocks, a microsecond. -/
def minTimestampDiff : Int := 1000

variable (proposal : Proposal)

namespace Proposal

def index (proposal : Proposal) : RoadIndex := proposal.view.index

def epochIndex (proposal : Proposal) : EpochIndex := proposal.view.epochIndex

def globalRange : GlobalRange where
  first := proposal.globalFirst
  next := proposal.laneRanges.ranges.foldl (fun next range => add64 next range.len)
    proposal.globalFirst

/-- The timestamp of block `number`, if it belongs to the proposal. -/
def blockTimestamp (number : GlobalBlockNumber) : Option Timestamp :=
  if proposal.globalRange.has number then
    some (addDuration proposal.timestamp
      (wrapInt64 (sub64 number proposal.globalRange.first * minTimestampDiff)))
  else none

def nextTimestamp : Timestamp :=
  addDuration proposal.timestamp (wrapInt64 (proposal.globalRange.len * minTimestampDiff))

def laneRange (lane : LaneID) : LaneRange := (proposal.laneRanges.get lane).getD (.empty lane 0)

def verify (proposal : Proposal) (epoch : Epoch) : Check := do
  inPart "view" (proposal.view.verify epoch)
  ensure (proposal.globalRange.len ≠ 0) .emptyTipcut
  checkAll (fun range => do
    ensure (range.len ≤ maxLaneRangeInProposal) (.laneRangeLen range.lane range.len)
    inPart "laneRange" (range.verify epoch.committee)) proposal.laneRanges.ranges

/-- What two proposals of one road must agree on: everything but the view. -/
structure Content where
  timestamp : Timestamp
  laneRanges : LaneRangeMap
  app : Option AppProposal
  globalFirst : GlobalBlockNumber
  deriving DecidableEq

def content : Content where
  timestamp := proposal.timestamp
  laneRanges := proposal.laneRanges
  app := proposal.app
  globalFirst := proposal.globalFirst

/-- The global range is a function of the content. -/
theorem globalRange_eq_of_content_eq {first second : Proposal}
    (same : first.content = second.content) : first.globalRange = second.globalRange := by
  simp only [content, Content.mk.injEq] at same
  obtain ⟨_, ranges, _, start⟩ := same
  simp only [globalRange, ranges, start]

theorem verify_view {proposal : Proposal} {epoch : Epoch}
    (verified : proposal.verify epoch = .ok ()) : proposal.view.verify epoch = .ok () := by
  simp only [verify, check_bind_eq_ok, inPart_eq_ok] at verified
  exact verified.1

end Proposal

/-- A proposal rebuilt from the parts of another one has its content. -/
theorem content_newProposal (view : View) :
    (newProposal view proposal.timestamp proposal.laneRanges.ranges proposal.app
      proposal.globalRange.first).content = proposal.content := by
  simp only [newProposal, Proposal.content, Proposal.globalRange, LaneRangeMap.ofList_ranges]

/-! ### Blocks -/

def standardTxBytes : Nat := 1024

/-- The most transactions of a block. -/
def maxTxsPerBlock : Nat := 2000

/-- The most bytes that all transactions of a block have together. -/
def maxTxsBytesPerBlock : Nat := maxTxsPerBlock * standardTxBytes

structure PayloadBuilder where
  createdAt : Timestamp
  totalGasWanted : Nat
  totalGasEstimated : Nat
  txs : List Bytes
  deriving DecidableEq

/-- The total size of the transactions, which the source adds up in 64 bits. -/
def PayloadBuilder.txsBytes (builder : PayloadBuilder) : Nat :=
  builder.txs.foldl (fun total tx => add64 total tx.length) 0

/-- What `Build` accepts. -/
structure Payload where
  toBuilder : PayloadBuilder
  fewTxs : toBuilder.txs.length ≤ maxTxsPerBlock
  fewBytes : toBuilder.txsBytes ≤ maxTxsBytesPerBlock
  deriving DecidableEq

inductive PayloadError where
  | tooManyTransactions
  | totalTxsBytesTooLarge
  deriving DecidableEq, Repr

def PayloadBuilder.build (builder : PayloadBuilder) : Except PayloadError Payload :=
  if fewTxs : builder.txs.length ≤ maxTxsPerBlock then
    if fewBytes : builder.txsBytes ≤ maxTxsBytesPerBlock then .ok ⟨builder, fewTxs, fewBytes⟩
    else .error .totalTxsBytesTooLarge
  else .error .tooManyTransactions

structure Block where
  header : BlockHeader
  payload : Payload
  deriving DecidableEq

end SeiChain.Autobahn
