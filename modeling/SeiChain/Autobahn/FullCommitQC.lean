/-
This file models finalized blocks: how a block is verified on its own, the commit
certificate together with the headers of the blocks it finalizes, and the registry
that knows the epoch of a certificate. A certificate that passes `Verify` has one
header for every number of its global range, which is what the lookups by offset
in the data layer rest on.
-/

import SeiChain.Autobahn.Messages

namespace SeiChain.Autobahn

open List

variable {Digest Sig : Type}

/-! ### Blocks -/

def BlockHeader.verify (header : BlockHeader) (committee : Committee) : Check :=
  ensure (committee.hasLane header.lane) (.notALane header.lane)

def Block.verify (block : Block) (crypto : Crypto Digest Sig) (committee : Committee) : Check := do
  inPart "header.Verify()" (block.header.verify committee)
  ensure (crypto.payloadHash block.payload = block.header.payloadHash)
    (.payloadHash (crypto.payloadHash block.payload) block.header.payloadHash)

/-- A finalized block with its global number. -/
structure GlobalBlock where
  header : BlockHeader
  timestamp : Timestamp
  globalNumber : GlobalBlockNumber
  payload : Payload
  finalAppState : Option AppProposal

/-! ### Certificates with headers -/

structure FullCommitQC (Sig : Type) where
  qc : CommitQC Sig
  headers : List BlockHeader
  deriving DecidableEq

/-- The headers of one lane, from the last one back: each hashes to what its successor names
as its parent. `next` is the offset after the last header of the lane. -/
def verifyHeaders (crypto : Crypto Digest Sig) (headers : List BlockHeader) (next : Nat) :
    List Nat → BlockHeaderHash → Check
  | [], _ => .ok ()
  | i :: rest, want =>
    match headers[sub64 (sub64 next i) 1]? with
    | none => .error (.headerOutOfRange (sub64 (sub64 next i) 1))
    | some header => do
      ensure (crypto.headerHash header = want) (.headerHash i (crypto.headerHash header) want)
      verifyHeaders crypto headers next rest header.parentHash

/-- The loop over the lanes; `next` counts the headers of the lanes before. -/
def verifyLanes (crypto : Crypto Digest Sig) (full : FullCommitQC Sig) :
    List LaneID → Nat → Check
  | [], _ => .ok ()
  | lane :: rest, next => do
    let range := full.qc.laneRange lane
    if range.len = 0 then verifyLanes crypto full rest next
    else
      verifyHeaders crypto full.headers (add64 next range.len) (List.range range.len) range.lastHash
      verifyLanes crypto full rest (add64 next range.len)

namespace FullCommitQC

variable (full : FullCommitQC Sig)

def globalRange : GlobalRange := full.qc.globalRange

def verify (crypto : Crypto Digest Sig) (epoch : Epoch) : Check := do
  inPart "qC" (full.qc.verify crypto epoch)
  ensure (wrapInt64 full.globalRange.len = full.headers.length)
    (.headersLen full.headers.length (wrapInt64 full.globalRange.len))
  verifyLanes crypto full epoch.committee.lanes 0

/-- `Headers()[number - GlobalRange().First]`, absent where the source reads past the end. -/
def headerAt (number : GlobalBlockNumber) : Option BlockHeader :=
  full.headers[sub64 number full.globalRange.first]?

end FullCommitQC

/-! ### One header for every number -/

/-- Adding lengths in 64 bits ends below `2 ^ 64`, unless nothing is added. -/
theorem foldl_add64_lt {ranges : List LaneRange} (start : Nat) (nonempty : ranges ≠ []) :
    ranges.foldl (fun next range => add64 next range.len) start < 2 ^ 64 := by
  induction ranges generalizing start with
  | nil => exact absurd rfl nonempty
  | cons range rest ih =>
    rw [foldl_cons]
    cases rest with
    | nil =>
      rw [foldl_nil]
      exact Nat.mod_lt _ (by decide)
    | cons => exact ih _ (cons_ne_nil _ _)

/-- A proposal that finalizes a block ends its global range below `2 ^ 64`. -/
theorem Proposal.globalRange_next_lt {proposal : Proposal}
    (finalizes : proposal.globalRange.len ≠ 0) : proposal.globalRange.next < 2 ^ 64 := by
  by_cases empty : proposal.laneRanges.ranges = []
  · refine absurd ?_ finalizes
    simp only [GlobalRange.len, globalRange, empty, foldl_nil, sub64]
    rw [Nat.add_sub_cancel_left, Nat.mod_self]
  · exact foldl_add64_lt _ empty

theorem Proposal.verify_finalizes {proposal : Proposal} {epoch : Epoch}
    (verified : proposal.verify epoch = .ok ()) : proposal.globalRange.len ≠ 0 := by
  simp only [Proposal.verify, check_bind_eq_ok, ensure_eq_ok] at verified
  exact verified.2.1

namespace FullCommitQC

variable {full : FullCommitQC Sig} {crypto : Crypto Digest Sig} {epoch : Epoch}

section

variable (verified : full.verify crypto epoch = .ok ())

include verified

theorem verify_finalizes : full.globalRange.len ≠ 0 := by
  simp only [verify, CommitQC.verify, check_bind_eq_ok, inPart_eq_ok] at verified
  exact Proposal.verify_finalizes verified.1.1

omit verified in
/-- A length of headers that equals a `uint64` read as an `int` equals the `uint64`. -/
theorem length_of_wrapInt64 (sameLength : wrapInt64 full.globalRange.len = full.headers.length) :
    full.headers.length = full.globalRange.len ∧ full.headers.length < 2 ^ 63 := by
  have small : full.globalRange.len < 2 ^ 64 := Nat.mod_lt _ (by decide)
  unfold wrapInt64 at sameLength
  omega

theorem length_headers : full.headers.length = full.globalRange.len := by
  simp only [verify, check_bind_eq_ok, ensure_eq_ok] at verified
  exact (length_of_wrapInt64 verified.2.1).1

/-- A verified certificate has a header for every number of its range. -/
theorem exists_headerAt
    {number : GlobalBlockNumber} (covered : full.globalRange.has number = true) :
    ∃ header, full.headerAt number = some header := by
  have nextSmall : full.globalRange.next < 2 ^ 64 :=
    Proposal.globalRange_next_lt (verify_finalizes verified)
  rw [GlobalRange.has_iff] at covered
  obtain ⟨firstLe, below⟩ := covered
  have offset : sub64 number full.globalRange.first = number - full.globalRange.first :=
    sub64_of_le firstLe (lt_trans below nextSmall)
  have length : full.headers.length = full.globalRange.next - full.globalRange.first := by
    rw [length_headers verified, GlobalRange.len, sub64_of_le (by lia) nextSmall]
  have inside : sub64 number full.globalRange.first < full.headers.length := by
    lia
  exact ⟨_, getElem?_eq_getElem inside⟩

end

end FullCommitQC

/-! ### The registry of epochs -/

/-- The epochs that are known, with the one at genesis always among them. -/
structure Registry where
  epochs : EpochIndex → Option Epoch
  genesis : Epoch
  registered : epochs 0 = some genesis

def newRegistry (committee : Committee) (firstBlock : GlobalBlockNumber)
    (genesisTimestamp : Timestamp) : Registry where
  epochs index := if index = 0 then some (genesisEpoch committee firstBlock genesisTimestamp) else none
  genesis := genesisEpoch committee firstBlock genesisTimestamp
  registered := rfl

namespace Registry

def firstBlock (registry : Registry) : GlobalBlockNumber := registry.genesis.firstBlock

def epochByIndex (registry : Registry) (index : EpochIndex) : Option Epoch := registry.epochs index

end Registry

end SeiChain.Autobahn
