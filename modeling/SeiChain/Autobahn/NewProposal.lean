/-
This file models how a leader builds a proposal and compares it with what the
replicas accept. Two results: the state hash of an accepted proposal is the one of
the previous commit certificate or has a certificate of its own, unless it was
swapped for another one of the same road; and exactly when the replicas accept what
an honest leader builds, which they do not if the state certificate that it has is
ahead of the blocks that it knows.
-/

import SeiChain.Autobahn.TimeoutReports

namespace SeiChain.Autobahn

open Library List FullProposal
open Option hiding mem_map

variable {Digest Sig : Type} (crypto : Crypto Digest Sig)

/-! ### Building a proposal -/

/-- The reasons for which `NewProposal` fails. -/
inductive NewProposalError where
  | notLeader (key : PublicKey) (leader : Option PublicKey)
  | laneQCLane (got want : LaneID)
  | laneRangeLen (lane : LaneID) (len : Nat)
  | emptyTipcut
  deriving DecidableEq, Repr

def newLaneRange (lane : LaneID) (first : BlockNumber) : Option BlockHeader → LaneRange
  | some header =>
    { lane, first, next := add64 header.blockNumber 1, lastHash := crypto.headerHash header }
  | none => .empty lane first

variable (spec : ViewSpec Sig)

/-- `AppOpt` of the proposal that the previous commit certificate finalized. -/
def ViewSpec.appOpt : Option AppProposal := spec.commitQC.bind fun qc => qc.proposal.app

/-- The lookup of a lane certificate by its lane. -/
def laneQCOf (laneQCs : LaneQCs Sig) (lane : LaneID) : Option (LaneQC Sig) :=
  (laneQCs.find? fun entry => entry.1 = lane).map Prod.snd

/-- One round of the loop of `buildProposal` over the lanes. -/
def buildLaneRange (laneQCs : LaneQCs Sig) (lane : LaneID) :
    Except NewProposalError LaneRange :=
  let first := (laneRangeOpt spec.commitQC lane).next
  match laneQCOf laneQCs lane with
  | some qc =>
    let range := newLaneRange crypto lane first (some qc.header)
    if qc.header.lane ≠ lane then .error (.laneQCLane qc.header.lane lane)
    else if range.len > maxLaneRangeInProposal then .error (.laneRangeLen lane range.len)
    else .ok range
  | none => .ok (newLaneRange crypto lane first none)

def buildLaneRanges (crypto : Crypto Digest Sig) (spec : ViewSpec Sig)
    (laneQCs : LaneQCs Sig) : List LaneID → Except NewProposalError (List LaneRange)
  | [] => .ok []
  | lane :: rest => do
    let range ← buildLaneRange crypto spec laneQCs lane
    let ranges ← buildLaneRanges crypto spec laneQCs rest
    .ok (range :: ranges)

/-- The state proposal that is later than the finalized one, or else the finalized one without
a certificate. -/
def laterApp (appQC : Option (AppQC Sig)) : Option AppProposal × Option (AppQC Sig) :=
  let app := appQC.map AppQC.proposal
  if nextAppOpt app ≤ nextAppOpt spec.appOpt then (spec.appOpt, none) else (app, appQC)

/-- The state proposal that `buildProposal` makes, with its certificate; one from the future is
cleared. -/
def buildApp (appQC : Option (AppQC Sig)) : Option AppProposal × Option (AppQC Sig) :=
  match laterApp spec appQC with
  | (some app, kept) =>
    if app.globalNumber ≥ spec.nextGlobalBlock then (none, none) else (some app, kept)
  | (none, kept) => (none, kept)

def buildProposal (timestamp : Timestamp) (laneQCs : LaneQCs Sig)
    (appQC : Option (AppQC Sig)) :
    Except NewProposalError (Proposal × Option (AppQC Sig)) := do
  let laneRanges ← buildLaneRanges crypto spec laneQCs spec.epoch.committee.lanes
  let (app, appQC) := buildApp spec appQC
  let timestamp := if timestamp < spec.nextTimestamp then spec.nextTimestamp else timestamp
  let proposal := newProposal spec.view timestamp laneRanges app spec.nextGlobalBlock
  if proposal.globalRange.len = 0 then .error .emptyTipcut else .ok (proposal, appQC)

def newReproposal (key : PublicKey) (spec : ViewSpec Sig) : Option (FullProposal Sig) := do
  let timeoutQC ← spec.timeoutQC
  let proposal ← timeoutQC.reproposal
  some {
    proposal := sign crypto key .proposal proposal
    laneQCs := []
    appQC := none
    timeoutQC := some timeoutQC }

/-- `NewProposal`, by the holder of `key`. -/
def newFullProposal (key : PublicKey) (spec : ViewSpec Sig) (timestamp : Timestamp)
    (laneQCs : LaneQCs Sig) (appQC : Option (AppQC Sig)) :
    Except NewProposalError (FullProposal Sig) :=
  if some key ≠ leader crypto spec.epoch.committee spec.view then
    .error (.notLeader key (leader crypto spec.epoch.committee spec.view))
  else
    match newReproposal crypto key spec with
    | some full => .ok full
    | none => do
      let (proposal, appQC) ← buildProposal crypto spec timestamp laneQCs appQC
      .ok { proposal := sign crypto key .proposal proposal, laneQCs, appQC,
            timeoutQC := spec.timeoutQC }

/-! ### State hashes of accepted proposals -/

/-- The proposal does not have to repeat one that timed out. -/
def FullProposal.IsFresh (full : FullProposal Sig) : Prop :=
  ∀ timeoutQC, full.timeoutQC = some timeoutQC → timeoutQC.reproposal = none

variable {crypto} {full : FullProposal Sig}

theorem FullProposal.verifyFresh_of_verify [DecidableEq Digest]
    {spec : ViewSpec Sig} (fresh : full.IsFresh) (verified : full.verify crypto spec = .ok ()) :
    full.verifyFresh crypto spec = .ok () := by
  rw [verify] at verified
  simp only [check_bind_eq_ok] at verified
  obtain ⟨_, _, _, _, _, _, verified⟩ := verified
  cases timedOut : full.timeoutQC with
  | none =>
    rw [timedOut] at verified
    exact verified
  | some timeoutQC =>
    rw [timedOut] at verified
    simp only [check_bind_eq_ok, fresh timeoutQC timedOut] at verified
    exact verified.2

def AppQC.signed (qc : AppQC Sig) : SignedMsgs Sig :=
  qc.sigs.map fun sig => (.appVote qc.proposal, sig)

/-- The certificate attached to a proposal certifies the given state proposal: a quorum signed
it, and its block is finalized. -/
structure FullProposal.Certifies (full : FullProposal Sig) (crypto : Crypto Digest Sig)
    (spec : ViewSpec Sig) (app : AppProposal) (appQC : AppQC Sig) : Prop where
  attached : full.appQC = some appQC
  proposal : appQC.proposal = app
  verified : appQC.verify crypto spec.epoch.committee = .ok ()
  quorum : SignedByQuorum crypto spec.epoch.committee spec.epoch.committee.appQuorum appQC.signed
  finalized : app.globalNumber < spec.nextGlobalBlock

/-- A fresh proposal that is accepted repeats the state proposal of the previous commit
certificate or has a certificate for a later one exactly if a state proposal with the same next
road as the previous one is the previous one: the verifier compares nothing else. -/
theorem app_justified [DecidableEq Digest] (full : FullProposal Sig) (spec : ViewSpec Sig)
    (verified : full.verify crypto spec = .ok ()) (fresh : full.IsFresh) :
    (full.proposal.msg.app = spec.appOpt ∨
      ∃ app appQC, full.proposal.msg.app = some app ∧ full.Certifies crypto spec app appQC) ↔
    (nextAppOpt full.proposal.msg.app = nextAppOpt spec.appOpt →
      full.proposal.msg.app = spec.appOpt) := by
  have verified := full.verifyFresh_of_verify fresh verified
  simp only [verifyFresh, check_bind_eq_ok] at verified
  have appOk : full.verifyApp crypto spec = .ok () := verified.2.2
  have notLower : ¬ nextAppOpt full.proposal.msg.app < nextAppOpt spec.appOpt := by
    intro lower
    cases (if_pos lower).symm.trans appOk
  have appOk := (if_neg notLower).symm.trans appOk
  by_cases same : nextAppOpt full.proposal.msg.app = nextAppOpt spec.appOpt
  · -- No certificate may be attached, so only the previous proposal is justified.
    have noQC : full.appQC.isNone := ensure_eq_ok.mp ((if_pos same).symm.trans appOk)
    constructor
    · rintro (repeated | ⟨app, appQC, _, certifies⟩) _
      · exact repeated
      · rw [certifies.attached] at noQC
        cases noQC
    · exact fun notSwapped => .inl (notSwapped same)
  · refine iff_of_true ?_ fun equal => absurd equal same
    have appOk := (if_neg same).symm.trans appOk
    cases proposed : full.proposal.msg.app with
    | none => simp [proposed] at appOk
    | some app =>
      cases attached : full.appQC with
      | none => simp [proposed, attached, check_bind_eq_ok] at appOk
      | some appQC =>
        simp only [proposed, attached, check_bind_eq_ok, ensure_eq_ok, inPart_eq_ok] at appOk
        obtain ⟨_, sameHash, qcOk, below⟩ := appOk
        have same : appQC.proposal = app := Msg.appVote.inj (crypto.hash_injective sameHash)
        exact .inr ⟨app, appQC, rfl, attached, same, qcOk, signedByQuorum_of_verifyQC qcOk,
          same ▸ below⟩

/-- Road `1` finalized the second block of a lane and the state after the first one. -/
def fourCommitQC : CommitQC Bool where
  vote := { proposal := finalized }
  sigs := threeSignatures
where
  finalized : Proposal :=
    newProposal { index := 1, number := 0, epochIndex := 0 } 0
      [{ lane := 1, first := 1, next := 2, lastHash := 2 }]
      (some { globalNumber := 0, roadIndex := 0, appHash := [1], epochIndex := 0 }) 1

def fourSpec : ViewSpec Bool where
  commitQC := some fourCommitQC
  timeoutQC := none
  epoch := genesisEpoch fourCommittee 0 0

/-- The certificate of the third block of the lane. -/
def fourLaneQCs : List (LaneID × LaneQC Bool) :=
  [(1, { header := { lane := 1, blockNumber := 2, parentHash := 2, payloadHash := 0 }
         sigs := threeSignatures })]

/-- A proposal for road `2` without a state certificate, with the given state hash. -/
def fourProposal (appHash : Bytes) : FullProposal Bool where
  proposal := sign openCrypto 1 .proposal (newProposal
    { index := 2, number := 0, epochIndex := 0 } 1000
    [{ lane := 1, first := 2, next := 3, lastHash := 3 }]
    (some { globalNumber := 0, roadIndex := 0, appHash := appHash, epochIndex := 0 }) 2)
  laneQCs := fourLaneQCs
  appQC := none
  timeoutQC := none

theorem app_justified_four :
    (fourProposal [1]).verify openCrypto fourSpec = .ok () ∧
    ((fourProposal [1]).proposal.msg.app = fourSpec.appOpt ∨
      ∃ app appQC, (fourProposal [1]).proposal.msg.app = some app ∧
        (fourProposal [1]).Certifies openCrypto fourSpec app appQC) := by
  have verified : (fourProposal [1]).verify openCrypto fourSpec = .ok () := by decide +kernel
  exact ⟨verified, (app_justified _ _ verified nofun).mpr fun _ => by decide⟩

/-- The leader swaps the finalized state hash for one that nobody signed, and the replicas accept
the proposal: the road is the same, so no certificate is asked for. -/
theorem swapped_app_accepted :
    (fourProposal [2]).verify openCrypto fourSpec = .ok () ∧ (fourProposal [2]).IsFresh ∧
    (fourProposal [2]).appQC = none ∧
    ((fourProposal [2]).proposal.msg.app.map AppProposal.appHash) = some [2] ∧
    (fourSpec.appOpt.map AppProposal.appHash) = some [1] :=
  ⟨by decide +kernel, nofun, rfl, by decide, by decide⟩

/-! ### Proposals of honest leaders -/

/-- What a leader is given to build on: certificates that verify, where those of the lanes are
for blocks that are not finalized and that of the state is of the epoch. -/
structure Justified (crypto : Crypto Digest Sig) (spec : ViewSpec Sig)
    (laneQCs : LaneQCs Sig) (appQC : Option (AppQC Sig)) : Prop where
  timeoutQC : ∀ qc, spec.timeoutQC = some qc → qc.verify crypto spec.epoch spec.commitQC = .ok ()
  laneQCs : ∀ entry ∈ laneQCs, entry.2.verify crypto spec.epoch.committee = .ok () ∧
    (laneRangeOpt spec.commitQC entry.1).next ≤ entry.2.header.blockNumber ∧
    entry.2.header.blockNumber < 2 ^ 64
  appQC : ∀ qc, appQC = some qc → qc.verify crypto spec.epoch.committee = .ok () ∧
    qc.proposal.epochIndex = spec.epoch.epochIndex

/-- The block number of the lane does not wrap, unless to an empty range with the hash of one. -/
abbrev BlockFits (crypto : Crypto Digest Sig) (spec : ViewSpec Sig) (laneQCs : LaneQCs Sig)
    (lane : LaneID) : Prop :=
  ∀ qc, laneQCOf laneQCs lane = some qc → qc.header.blockNumber + 1 < 2 ^ 64 ∨
    (laneRangeOpt spec.commitQC lane).next = 0 ∧ crypto.headerHash qc.header = 0

/-- The state proposal that is taken is not ahead of the finalized blocks. -/
abbrev AppKnown (spec : ViewSpec Sig) (appQC : Option (AppQC Sig)) : Prop :=
  ∀ app, (laterApp spec appQC).1 = some app → app.globalNumber < spec.nextGlobalBlock

/-- What else the replicas ask of a fresh proposal: the road is one of the epoch, the block
numbers of its lanes fit, and the state proposal is known unless there is none to fall behind. -/
structure AcceptableFresh (crypto : Crypto Digest Sig) (spec : ViewSpec Sig)
    (laneQCs : LaneQCs Sig) (appQC : Option (AppQC Sig)) : Prop where
  road : spec.epoch.roads.has spec.view.index = true
  blocks : ∀ lane ∈ spec.epoch.committee.lanes, BlockFits crypto spec laneQCs lane
  app : nextAppOpt spec.appOpt = 0 ∨ AppKnown spec appQC

/-- What else the replicas ask for: a proposal that has to be repeated continues the finalized one,
and a fresh one is acceptable. -/
def Acceptable (crypto : Crypto Digest Sig) (spec : ViewSpec Sig)
    (laneQCs : LaneQCs Sig) (appQC : Option (AppQC Sig)) : Prop :=
  match spec.timeoutQC.bind TimeoutQC.latestPrepareQC with
  | some prepareQC =>
    prepareQC.proposal.globalRange.first = spec.nextGlobalBlock ∧
      spec.nextTimestamp ≤ prepareQC.proposal.timestamp
  | none => AcceptableFresh crypto spec laneQCs appQC

section

variable {spec : ViewSpec Sig} {laneQCs : LaneQCs Sig} {appQC : Option (AppQC Sig)}
  {lane : LaneID} (justified : Justified crypto spec laneQCs appQC)

theorem mem_of_laneQCOf {qc : LaneQC Sig}
    (found : laneQCOf laneQCs lane = some qc) : (lane, qc) ∈ laneQCs := by
  obtain ⟨entry, isEntry, rfl⟩ := map_eq_some_iff.mp found
  have same : entry.1 = lane := by simpa using find?_some isEntry
  exact same ▸ mem_of_find?_eq_some isEntry

/-- What the replicas check of one lane range. -/
structure GoodRange (crypto : Crypto Digest Sig) (spec : ViewSpec Sig)
    (laneQCs : LaneQCs Sig) (range : LaneRange) : Prop where
  first : range.first = (laneRangeOpt spec.commitQC range.lane).next
  ordered : range.first ≤ range.next
  emptyHash : range.first = range.next → range.lastHash = 0
  certified : range.first < range.next → ∃ qc, laneQCOf laneQCs range.lane = some qc ∧
    qc.header.blockNumber = sub64 range.next 1 ∧ crypto.headerHash qc.header = range.lastHash ∧
    qc.verify crypto spec.epoch.committee = .ok ()

include justified in
theorem goodRange_of_build {range : LaneRange}
    (fits : BlockFits crypto spec laneQCs lane)
    (built : buildLaneRange crypto spec laneQCs lane = .ok range) :
    GoodRange crypto spec laneQCs range := by
  rw [buildLaneRange] at built
  cases found : laneQCOf laneQCs lane with
  | none =>
    rw [found] at built
    cases built
    exact ⟨rfl, le_rfl, fun _ => rfl, fun less => absurd less (lt_irrefl _)⟩
  | some qc =>
    simp only [found] at built
    split at built
    · cases built
    split at built
    · cases built
    cases built
    obtain ⟨qcOk, above, bound⟩ := justified.laneQCs _ (mem_of_laneQCOf found)
    by_cases small : qc.header.blockNumber + 1 < 2 ^ 64
    · have next : add64 qc.header.blockNumber 1 = qc.header.blockNumber + 1 :=
        Nat.mod_eq_of_lt small
      have less : (laneRangeOpt spec.commitQC lane).next < add64 qc.header.blockNumber 1 := by
        rw [next]
        exact Nat.lt_succ_of_le above
      refine ⟨rfl, less.le, fun same => absurd same less.ne,
        fun _ => ⟨qc, found, ?_, rfl, qcOk⟩⟩
      simp only [newLaneRange, next, sub64]
      lia
    · -- The next block number wraps to zero, where the lane starts.
      obtain ⟨first, hash⟩ := (fits qc found).resolve_left small
      have next : add64 qc.header.blockNumber 1 = 0 := by
        rw [add64]
        lia
      have same : (newLaneRange crypto lane (laneRangeOpt spec.commitQC lane).next
          (some qc.header)).first = (newLaneRange crypto lane
            (laneRangeOpt spec.commitQC lane).next (some qc.header)).next := first.trans next.symm
      exact ⟨rfl, same.le, fun _ => hash, fun less => absurd same less.ne⟩

theorem lane_of_build {range : LaneRange}
    (built : buildLaneRange crypto spec laneQCs lane = .ok range) :
    range.lane = lane ∧ range.len ≤ maxLaneRangeInProposal ∧
      ∀ qc, laneQCOf laneQCs lane = some qc → range =
        newLaneRange crypto lane (laneRangeOpt spec.commitQC lane).next (some qc.header) := by
  rw [buildLaneRange] at built
  cases found : laneQCOf laneQCs lane with
  | none =>
    rw [found] at built
    cases built
    refine ⟨rfl, ?_, nofun⟩
    simp [newLaneRange, LaneRange.empty, LaneRange.len, sub64]
  | some qc =>
    simp only [found] at built
    split_ifs at built with _ long
    cases built
    refine ⟨rfl, not_lt.mp long, ?_⟩
    rintro _ ⟨⟩
    rfl

/-- The loop makes one range for each lane, in the order of the lanes. -/
theorem ranges_of_build {lanes : List LaneID} {ranges : List LaneRange}
    (built : buildLaneRanges crypto spec laneQCs lanes = .ok ranges) :
    ranges.map LaneRange.lane = lanes ∧
      ∀ range ∈ ranges, buildLaneRange crypto spec laneQCs range.lane = .ok range := by
  induction lanes generalizing ranges with
  | nil =>
    cases built
    exact ⟨rfl, nofun⟩
  | cons lane rest ih =>
    obtain ⟨range, first, built⟩ := exceptBind_eq_ok.mp built
    obtain ⟨others, later, built⟩ := exceptBind_eq_ok.mp built
    cases built
    obtain ⟨sameLane, _⟩ := lane_of_build first
    obtain ⟨sameLanes, othersBuilt⟩ := ih later
    refine ⟨by rw [map_cons, sameLane, sameLanes], fun other member => ?_⟩
    rcases mem_cons.mp member with rfl | member
    · exact sameLane ▸ first
    · exact othersBuilt other member

/-- The committee's lanes are in order, so the map of the ranges holds them as they were made. -/
theorem ofList_ranges_of_lanes {committee : Committee} {ranges : List LaneRange}
    (lanes : ranges.map LaneRange.lane = committee.lanes) :
    (LaneRangeMap.ofList ranges).ranges = ranges := by
  have sorted : ranges.Pairwise fun first second => first.lane < second.lane := by
    rw [← pairwise_map, lanes]
    exact committee.sorted
  exact congrArg LaneRangeMap.ranges (LaneRangeMap.ofList_ranges ⟨ranges, sorted⟩)

variable {proposal : Proposal}

theorem laneRange_mem {committee : Committee}
    (lanes : proposal.laneRanges.ranges.map LaneRange.lane = committee.lanes)
    (isLane : lane ∈ committee.lanes) :
    proposal.laneRange lane ∈ proposal.laneRanges.ranges := by
  rw [← lanes, mem_map] at isLane
  obtain ⟨range, member, rfl⟩ := isLane
  have found : (proposal.laneRanges.get range.lane).isSome := by
    rw [LaneRangeMap.get, find?_isSome]
    exact ⟨range, member, by simp⟩
  obtain ⟨other, isOther⟩ := isSome_iff_exists.mp found
  rw [Proposal.laneRange, isOther]
  exact mem_of_find?_eq_some isOther

theorem verifyLane_of_good [DecidableEq Digest]
    (good : GoodRange crypto spec full.laneQCs (full.proposal.msg.laneRange lane)) :
    full.verifyLane crypto spec lane = .ok () := by
  simp only [verifyLane, check_bind_eq_ok, ensure_eq_ok]
  refine ⟨good.first, ?_⟩
  split
  · rename_i less
    obtain ⟨qc, found, number, hash, qcOk⟩ := good.certified less
    rw [show full.laneQC (full.proposal.msg.laneRange lane).lane = some qc from found]
    simp only [check_bind_eq_ok, ensure_eq_ok, inPart_eq_ok]
    exact ⟨number, hash, qcOk⟩
  · rfl

theorem ViewSpec.view_epochIndex (spec : ViewSpec Sig) :
    spec.view.epochIndex = spec.epoch.epochIndex := by
  rw [ViewSpec.view]
  split <;> rfl

/-- The structural checks pass exactly if the road is one of the epoch and every range is in order
and, where it is empty, without a hash. -/
theorem proposal_verify_iff (view : proposal.view = spec.view)
    (nonEmpty : proposal.globalRange.len ≠ 0)
    (lanes : proposal.laneRanges.ranges.map LaneRange.lane = spec.epoch.committee.lanes)
    (short : ∀ range ∈ proposal.laneRanges.ranges, range.len ≤ maxLaneRangeInProposal) :
    proposal.verify spec.epoch = .ok () ↔ spec.epoch.roads.has spec.view.index = true ∧
      ∀ range ∈ proposal.laneRanges.ranges,
        range.first ≤ range.next ∧ (range.first = range.next → range.lastHash = 0) := by
  simp only [Proposal.verify, View.verify, LaneRange.verify, check_bind_eq_ok, ensure_eq_ok,
    inPart_eq_ok, checkAll_eq_ok, view, not_and, not_not]
  constructor
  · rintro ⟨⟨_, road⟩, _, checked⟩
    exact ⟨road, fun range member => (checked range member).2.2⟩
  · rintro ⟨road, ordered⟩
    refine ⟨⟨spec.view_epochIndex, road⟩, nonEmpty, fun range member => ?_⟩
    have isLane : range.lane ∈ spec.epoch.committee.lanes := lanes ▸ mem_map_of_mem member
    exact ⟨short range member, decide_eq_true isLane, ordered range member⟩

/-- A range from a lane certificate is only in order if its end did not wrap, or the lane starts at
zero and the hash is that of an empty range. -/
theorem block_of_ordered {qc : LaneQC Sig} {first : BlockNumber}
    (bound : qc.header.blockNumber < 2 ^ 64)
    (ordered : first ≤ (newLaneRange crypto lane first (some qc.header)).next)
    (emptyHash : first = (newLaneRange crypto lane first (some qc.header)).next →
      crypto.headerHash qc.header = 0) :
    qc.header.blockNumber + 1 < 2 ^ 64 ∨ first = 0 ∧ crypto.headerHash qc.header = 0 := by
  by_cases small : qc.header.blockNumber + 1 < 2 ^ 64
  · exact .inl small
  · have next : (newLaneRange crypto lane first (some qc.header)).next = 0 := by
      rw [newLaneRange, add64]
      lia
    rw [next] at ordered emptyHash
    have zero := Nat.le_zero.mp ordered
    exact .inr ⟨zero, emptyHash zero⟩

include justified in
/-- The replicas accept the ranges that were built exactly if none of them wrapped. -/
theorem ranges_accepted_iff [DecidableEq Digest] {ranges : List LaneRange}
    (built : buildLaneRanges crypto spec laneQCs spec.epoch.committee.lanes = .ok ranges)
    (same : full.proposal.msg.laneRanges = .ofList ranges) (given : full.laneQCs = laneQCs)
    (view : full.proposal.msg.view = spec.view)
    (nonEmpty : full.proposal.msg.globalRange.len ≠ 0) :
    (full.proposal.msg.verify spec.epoch = .ok () ∧
      ∀ lane ∈ spec.epoch.committee.lanes, full.verifyLane crypto spec lane = .ok ()) ↔
    spec.epoch.roads.has spec.view.index = true ∧
      ∀ lane ∈ spec.epoch.committee.lanes, BlockFits crypto spec laneQCs lane := by
  obtain ⟨lanes, ranged⟩ := ranges_of_build built
  have held : full.proposal.msg.laneRanges.ranges = ranges := same ▸ ofList_ranges_of_lanes lanes
  rw [← held] at lanes ranged
  have short : ∀ range ∈ full.proposal.msg.laneRanges.ranges,
      range.len ≤ maxLaneRangeInProposal := fun range member => (lane_of_build (ranged range member)).2.1
  rw [proposal_verify_iff view nonEmpty lanes short]
  constructor
  · rintro ⟨⟨road, ordered⟩, _⟩
    refine ⟨road, fun lane isLane qc found => ?_⟩
    rw [← lanes, mem_map] at isLane
    obtain ⟨range, member, rfl⟩ := isLane
    obtain ⟨_, _, fromQC⟩ := lane_of_build (ranged range member)
    have inOrder := ordered range member
    rw [fromQC qc found] at inOrder
    exact block_of_ordered (justified.laneQCs _ (mem_of_laneQCOf found)).2.2 inOrder.1 inOrder.2
  · rintro ⟨road, blocks⟩
    have good : ∀ range ∈ full.proposal.msg.laneRanges.ranges,
        GoodRange crypto spec full.laneQCs range := by
      intro range member
      have isLane : range.lane ∈ spec.epoch.committee.lanes := lanes ▸ mem_map_of_mem member
      exact given ▸ goodRange_of_build justified (blocks _ isLane) (ranged range member)
    exact ⟨⟨road, fun range member => ⟨(good range member).ordered, (good range member).emptyHash⟩⟩,
      fun lane isLane => verifyLane_of_good (good _ (laneRange_mem lanes isLane))⟩

/-! ### The state proposal -/

theorem buildApp_of_ahead {app : AppProposal} (taken : (laterApp spec appQC).1 = some app)
    (ahead : spec.nextGlobalBlock ≤ app.globalNumber) : buildApp spec appQC = (none, none) := by
  rw [buildApp]
  split
  next other kept laterIs =>
    rw [laterIs] at taken
    cases taken
    exact if_pos ahead
  next kept laterIs =>
    rw [laterIs] at taken
    cases taken

theorem buildApp_of_known (known : AppKnown spec appQC) :
    buildApp spec appQC = laterApp spec appQC := by
  rw [buildApp]
  split
  next app kept laterIs =>
    rw [AppKnown, laterIs] at known
    rw [laterIs]
    exact if_neg (not_le.mpr (known app rfl))
  next kept laterIs => exact laterIs.symm

include justified in
/-- A state proposal that is not ahead is accepted: it is the previous one, or a later one with its
certificate. -/
theorem verifyApp_of_known [DecidableEq Digest] (view : full.proposal.msg.view = spec.view)
    (app : full.proposal.msg.app = (laterApp spec appQC).1)
    (attached : full.appQC = (laterApp spec appQC).2)
    (known : AppKnown spec appQC) :
    full.verifyApp crypto spec = .ok () := by
  by_cases notLater : nextAppOpt (appQC.map AppQC.proposal) ≤ nextAppOpt spec.appOpt
  · have taken : laterApp spec appQC = (spec.appOpt, none) := if_pos notLater
    rw [taken] at app attached
    have same : nextAppOpt full.proposal.msg.app = nextAppOpt spec.appOpt := congrArg nextAppOpt app
    refine (if_neg (Nat.not_lt_of_le same.ge)).trans ((if_pos same).trans ?_)
    rw [attached]
    rfl
  · have taken : laterApp spec appQC = (appQC.map AppQC.proposal, appQC) := if_neg notLater
    rw [AppKnown, taken] at known
    rw [taken] at app attached
    cases isQC : appQC with
    | none =>
      rw [isQC] at notLater
      exact absurd (Nat.zero_le _) notLater
    | some qc =>
      rw [isQC] at app attached known notLater
      obtain ⟨qcOk, epoch⟩ := justified.appQC qc isQC
      have later : nextAppOpt spec.appOpt < nextAppOpt full.proposal.msg.app :=
        app ▸ not_le.mp notLater
      refine (if_neg (Nat.not_lt_of_lt later)).trans ((if_neg later.ne').trans ?_)
      simp only [app, attached, map_some, check_bind_eq_ok, ensure_eq_ok, inPart_eq_ok]
      refine ⟨?_, trivial, qcOk, known _ rfl⟩
      rw [epoch, ← spec.view_epochIndex, ← view]
      rfl

include justified in
/-- One that is ahead is cleared, which is accepted exactly if there is nothing to fall behind. -/
theorem verifyApp_iff [DecidableEq Digest] (view : full.proposal.msg.view = spec.view)
    (app : full.proposal.msg.app = (buildApp spec appQC).1)
    (attached : full.appQC = (buildApp spec appQC).2) :
    full.verifyApp crypto spec = .ok () ↔
      nextAppOpt spec.appOpt = 0 ∨ AppKnown spec appQC := by
  by_cases known : AppKnown spec appQC
  · rw [buildApp_of_known known] at app attached
    exact iff_of_true (verifyApp_of_known justified view app attached known) (.inr known)
  · obtain ⟨taken, isTaken, ahead⟩ : ∃ app, (laterApp spec appQC).1 = some app ∧
        spec.nextGlobalBlock ≤ app.globalNumber := by simpa [AppKnown] using known
    rw [buildApp_of_ahead isTaken ahead] at app attached
    rw [or_iff_left known]
    have cleared : nextAppOpt full.proposal.msg.app = 0 := congrArg nextAppOpt app
    constructor
    · intro verified
      by_contra positive
      have lower : nextAppOpt full.proposal.msg.app < nextAppOpt spec.appOpt :=
        cleared ▸ Nat.pos_of_ne_zero positive
      cases (if_pos lower).symm.trans verified
    · intro zero
      have same := cleared.trans zero.symm
      refine (if_neg (Nat.not_lt_of_le same.ge)).trans ((if_pos same).trans ?_)
      rw [attached]
      rfl

/-! ### The whole proposal -/

variable {key : PublicKey}

/-- The leader is a replica, so the replicas accept its signature. -/
theorem verifySig_of_leader (isLeader : some key = leader crypto spec.epoch.committee spec.view) :
    verifySig crypto spec.epoch.committee (.proposal proposal)
      (sign crypto key .proposal proposal).sig = .ok () := by
  obtain ⟨drawn, member, isDrawn⟩ := spec.epoch.committee.randomReplica_isSome crypto.sha256
    (bigEndian 8 spec.view.index ++ bigEndian 8 spec.view.number)
  cases isLeader.trans isDrawn
  exact verifySig_eq_ok.mpr ⟨member, crypto.verify_sign _ _⟩

include justified in
theorem repeated_accepted_iff [DecidableEq Digest] {timeoutQC : TimeoutQC Sig}
    (isLeader : some key = leader crypto spec.epoch.committee spec.view)
    (timedOut : spec.timeoutQC = some timeoutQC) (repeats : timeoutQC.reproposal = some proposal) :
    verify
      { proposal := sign crypto key .proposal proposal
        laneQCs := []
        appQC := none
        timeoutQC := some timeoutQC } crypto spec = .ok () ↔
    proposal.globalRange.first = spec.nextGlobalBlock ∧ spec.nextTimestamp ≤ proposal.timestamp := by
  have qcOk := justified.timeoutQC timeoutQC timedOut
  have view : proposal.view = spec.view := by
    obtain ⟨prepareQC, _, rfl⟩ := map_eq_some_iff.mp repeats
    rw [TimeoutQC.verify, check_bind_eq_ok, check_bind_eq_ok, ensure_eq_ok] at qcOk
    have index : timeoutQC.view.next.index = nextIndexOpt spec.commitQC := qcOk.2.1
    have epoch : timeoutQC.view.next.epochIndex = spec.epoch.epochIndex :=
      View.epochIndex_of_verify qcOk.1
    rw [ViewSpec.view, timedOut, map_some, nextViewOpt, if_pos index, ← epoch]
    rfl
  rw [verify]
  simp only [check_bind_eq_ok, ensure_eq_ok, inPart_eq_ok, repeats]
  constructor
  · rintro ⟨_, first, time, _⟩
    exact ⟨first, time⟩
  · rintro ⟨first, time⟩
    exact ⟨view, first, time, isLeader, verifySig_of_leader isLeader, by rw [timedOut], qcOk,
      ⟨rfl, rfl⟩, rfl⟩

/-- What a proposal that was built consists of; its timestamp is not before the allowed one. -/
theorem buildProposal_eq_ok {timestamp : Timestamp} {kept : Option (AppQC Sig)}
    (built : buildProposal crypto spec timestamp laneQCs appQC = .ok (proposal, kept)) :
    ∃ ranges time, buildLaneRanges crypto spec laneQCs spec.epoch.committee.lanes = .ok ranges ∧
      spec.nextTimestamp ≤ time ∧
      proposal = newProposal spec.view time ranges (buildApp spec appQC).1 spec.nextGlobalBlock ∧
      kept = (buildApp spec appQC).2 ∧ proposal.globalRange.len ≠ 0 := by
  obtain ⟨ranges, rangesBuilt, built⟩ := exceptBind_eq_ok.mp built
  have late : spec.nextTimestamp ≤
      if timestamp < spec.nextTimestamp then spec.nextTimestamp else timestamp := by
    split
    · exact le_rfl
    · exact not_lt.mp ‹_›
  dsimp only at built
  generalize (if timestamp < spec.nextTimestamp then spec.nextTimestamp else timestamp) = time
    at built late
  refine ⟨ranges, time, rangesBuilt, late, ?_⟩
  by_cases nothing : (newProposal spec.view time ranges (buildApp spec appQC).1
      spec.nextGlobalBlock).globalRange.len = 0
  · simp [nothing] at built
  · rw [if_neg nothing] at built
    cases built
    exact ⟨rfl, rfl, nothing⟩

include justified in
/-- The other checks pass for a proposal that the leader signed for the view. -/
theorem verify_iff_verifyFresh [DecidableEq Digest] (timedOut : full.timeoutQC = spec.timeoutQC)
    (fresh : spec.timeoutQC.bind TimeoutQC.latestPrepareQC = none)
    (view : full.proposal.msg.view = spec.view)
    (first : full.proposal.msg.globalRange.first = spec.nextGlobalBlock)
    (late : spec.nextTimestamp ≤ full.proposal.msg.timestamp)
    (isLeader : some full.proposal.sig.key = leader crypto spec.epoch.committee spec.view)
    (signed : verifySig crypto spec.epoch.committee (.proposal full.proposal.msg)
      full.proposal.sig = .ok ()) :
    full.verify crypto spec = .ok () ↔ full.verifyFresh crypto spec = .ok () := by
  rw [verify]
  simp only [check_bind_eq_ok, ensure_eq_ok, inPart_eq_ok, view, first, late, isLeader, signed,
    timedOut, true_and]
  cases isQC : spec.timeoutQC with
  | none => rfl
  | some timeoutQC =>
    rw [isQC, bind_some] at fresh
    have repeats : timeoutQC.reproposal = none := congrArg (Option.map _) fresh
    simp only [check_bind_eq_ok, inPart_eq_ok, justified.timeoutQC timeoutQC isQC, repeats, true_and]

include justified in
theorem fresh_accepted_iff [DecidableEq Digest] {timestamp : Timestamp} {kept : Option (AppQC Sig)}
    (isLeader : some key = leader crypto spec.epoch.committee spec.view)
    (fresh : spec.timeoutQC.bind TimeoutQC.latestPrepareQC = none)
    (built : buildProposal crypto spec timestamp laneQCs appQC = .ok (proposal, kept)) :
    verify
      { proposal := sign crypto key .proposal proposal
        laneQCs := laneQCs
        appQC := kept
        timeoutQC := spec.timeoutQC } crypto spec = .ok () ↔
    AcceptableFresh crypto spec laneQCs appQC := by
  obtain ⟨ranges, time, rangesBuilt, late, rfl, rfl, nonEmpty⟩ := buildProposal_eq_ok built
  rw [verify_iff_verifyFresh justified rfl fresh rfl rfl late isLeader (verifySig_of_leader isLeader),
    verifyFresh, check_bind_eq_ok, check_bind_eq_ok, inPart_eq_ok, checkAll_eq_ok, ← and_assoc,
    ranges_accepted_iff justified rangesBuilt rfl rfl rfl nonEmpty,
    verifyApp_iff justified rfl rfl rfl]
  exact ⟨fun ⟨⟨road, blocks⟩, app⟩ => ⟨road, blocks, app⟩,
    fun ⟨road, blocks, app⟩ => ⟨⟨road, blocks⟩, app⟩⟩

/-- The replicas accept what an honest leader proposes, fresh or repeated, exactly if it is
acceptable. -/
theorem newFullProposal_accepted [DecidableEq Digest] (key : PublicKey) (spec : ViewSpec Sig)
    (timestamp : Timestamp) (laneQCs : LaneQCs Sig) (appQC : Option (AppQC Sig))
    (full : FullProposal Sig) (justified : Justified crypto spec laneQCs appQC)
    (proposed : newFullProposal crypto key spec timestamp laneQCs appQC = .ok full) :
    full.verify crypto spec = .ok () ↔ Acceptable crypto spec laneQCs appQC := by
  rw [newFullProposal] at proposed
  split at proposed
  · cases proposed
  rename_i notOther
  have isLeader := not_not.mp notOther
  rw [Acceptable]
  cases repeats : spec.timeoutQC.bind TimeoutQC.latestPrepareQC with
  | some prepareQC =>
    obtain ⟨timeoutQC, timedOut, inherited⟩ := bind_eq_some_iff.mp repeats
    have isProposal : timeoutQC.reproposal = some _ := congrArg (Option.map _) inherited
    rw [newReproposal, timedOut] at proposed
    simp only [bind_eq_bind, bind_some, isProposal] at proposed
    cases proposed
    exact repeated_accepted_iff justified isLeader timedOut isProposal
  | none =>
    have isFresh : newReproposal crypto key spec = none := by
      rw [newReproposal]
      cases timedOut : spec.timeoutQC with
      | none => rfl
      | some timeoutQC =>
        rw [timedOut, bind_some] at repeats
        simp [TimeoutQC.reproposal, repeats]
    rw [isFresh] at proposed
    obtain ⟨parts, built, proposed⟩ := exceptBind_eq_ok.mp proposed
    cases proposed
    exact fresh_accepted_iff justified isLeader repeats built

end

/-- A certificate of a state that the given road leads to. -/
def fourAppQC (roadIndex : RoadIndex) (globalNumber : GlobalBlockNumber) : AppQC Bool where
  proposal := { globalNumber, roadIndex, appHash := [1], epochIndex := 0 }
  sigs := threeSignatures

theorem fourSpec_justified (roadIndex : RoadIndex) (globalNumber : GlobalBlockNumber) :
    Justified openCrypto fourSpec fourLaneQCs (some (fourAppQC roadIndex globalNumber)) where
  timeoutQC := nofun
  laneQCs := by decide +kernel
  appQC := by
    rintro _ ⟨⟩
    exact ⟨rfl, rfl⟩

theorem newFullProposal_accepted_four :
    ∃ full, newFullProposal openCrypto 1 fourSpec 0 fourLaneQCs (some (fourAppQC 1 1)) = .ok full ∧
      full.verify openCrypto fourSpec = .ok () := by
  have acceptable : AcceptableFresh openCrypto fourSpec fourLaneQCs (some (fourAppQC 1 1)) :=
    { road := by decide
      blocks := by decide
      app := .inr (by decide) }
  refine ⟨_, rfl, ?_⟩
  exact (newFullProposal_accepted 1 _ 0 _ _ _ (fourSpec_justified 1 1) rfl).mpr acceptable

/-- The state certificate is ahead of the blocks that the leader knows. The leader drops the state
proposal altogether, and the replicas refuse to go back behind the finalized one. -/
theorem proposal_behind_state_rejected :
    (∀ qc, fourSpec.commitQC = some qc → qc.verify openCrypto fourSpec.epoch = .ok ()) ∧
    Justified openCrypto fourSpec fourLaneQCs (some (fourAppQC 2 2)) ∧
    ∃ full, newFullProposal openCrypto 1 fourSpec 0 fourLaneQCs (some (fourAppQC 2 2)) = .ok full ∧
      full.verify openCrypto fourSpec = .error .appLower := by
  refine ⟨?_, fourSpec_justified 2 2, _, rfl, by decide +kernel⟩
  decide +kernel

end SeiChain.Autobahn
