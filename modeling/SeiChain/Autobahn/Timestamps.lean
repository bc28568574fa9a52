/-
This file proves that the timestamps of finalized blocks increase. The blocks of one
proposal are a microsecond apart, and a proposal may not be earlier than a
microsecond after the last block of the certificate before it. A repeated proposal
keeps its timestamp and is checked again. The seconds of a time saturate, though, and
no check has an upper bound: with a timestamp in the last second that a time can
represent, the next block is earlier than the one before.
-/

import SeiChain.Autobahn.HeaderRuns

namespace SeiChain.Autobahn

open List FullProposal

variable {Digest Sig : Type} {crypto : Crypto Digest Sig}

/-! ### Proposals that are accepted -/

variable {full : FullProposal Sig} {spec : ViewSpec Sig}

/-- A repeated proposal is not verified on its own, but has the content of one that was. -/
theorem FullProposal.exists_verified [DecidableEq Digest]
    (verified : full.verify crypto spec = .ok ()) :
    ∃ proposal : Proposal, proposal.verify spec.epoch = .ok () ∧
      proposal.content = full.proposal.msg.content := by
  have fresh (isFresh : full.verifyFresh crypto spec = .ok ()) :
      full.proposal.msg.verify spec.epoch = .ok () := by
    simp only [verifyFresh, check_bind_eq_ok, inPart_eq_ok] at isFresh
    exact isFresh.1
  rw [verify] at verified
  simp only [check_bind_eq_ok] at verified
  obtain ⟨_, _, _, _, _, _, verified⟩ := verified
  cases timedOut : full.timeoutQC with
  | none =>
    rw [timedOut] at verified
    exact ⟨_, fresh verified, rfl⟩
  | some timeoutQC =>
    rw [timedOut] at verified
    simp only [check_bind_eq_ok, inPart_eq_ok] at verified
    obtain ⟨qcVerified, verified⟩ := verified
    cases inherited : timeoutQC.latestPrepareQC with
    | none =>
      rw [TimeoutQC.reproposal, inherited] at verified
      exact ⟨_, fresh verified, rfl⟩
    | some prepareQC =>
      rw [TimeoutQC.reproposal, inherited] at verified
      simp only [Option.map_some, check_bind_eq_ok, ensure_eq_ok] at verified
      have same := Msg.proposal.inj (crypto.hash_injective verified.2)
      refine ⟨prepareQC.proposal, ?_, ?_⟩
      · have prepared := (TimeoutQC.prepared_of_verify qcVerified inherited).1
        simp only [PrepareQC.verify, check_bind_eq_ok] at prepared
        exact prepared.1
      · rw [← same]
        exact (content_newProposal prepareQC.proposal timeoutQC.view.next).symm

/-- The times and numbers of the proposal are inside the ranges of their types: the timestamp is
before the last second of a time, and the global numbers do not wrap. -/
structure Proposal.InRange (proposal : Proposal) : Prop where
  early : -2 ^ 63 * nanosPerSecond ≤ proposal.timestamp
  late : proposal.timestamp < (2 ^ 63 - 1) * nanosPerSecond
  numbers : proposal.globalRange.first ≤ proposal.globalRange.next

/-- Before the last second nothing saturates. -/
theorem addDuration_of_lt {time duration : Int}
    (early : -2 ^ 63 * nanosPerSecond ≤ time) (late : time < (2 ^ 63 - 1) * nanosPerSecond)
    (nonnegative : 0 ≤ duration) (short : duration < nanosPerSecond) :
    addDuration time duration = time + duration := by
  unfold addDuration saturateSeconds nanosPerSecond at *
  dsimp only
  split_ifs <;> lia

/-- What the checks establish about the numbers of an accepted proposal. -/
theorem FullProposal.len_le [DecidableEq Digest]
    (verified : full.verify crypto spec = .ok ()) (inRange : full.proposal.msg.InRange) :
    full.proposal.msg.globalRange.next < 2 ^ 64 ∧
    full.proposal.msg.globalRange.next ≤ full.proposal.msg.globalRange.first + 1000 := by
  obtain ⟨proposal, proposalVerified, sameContent⟩ := full.exists_verified verified
  have numbers := inRange.numbers
  rw [← Proposal.globalRange_eq_of_content_eq sameContent] at numbers ⊢
  have small := Proposal.globalRange_next_lt (Proposal.verify_finalizes proposalVerified)
  have short := Proposal.sum_len_le proposalVerified
  rw [← Proposal.len_globalRange proposalVerified (numbers.trans_lt small), GlobalRange.len,
    sub64_of_le numbers small] at short
  exact ⟨small, by lia⟩

namespace Proposal.InRange

variable {proposal : Proposal} (inRange : proposal.InRange)

include inRange

theorem addMicros {count : Nat} (few : count ≤ 1000) :
    addDuration proposal.timestamp (wrapInt64 (count * minTimestampDiff)) =
      proposal.timestamp + count * 1000 := by
  have fits : wrapInt64 (count * minTimestampDiff) = count * 1000 := by
    unfold wrapInt64 minTimestampDiff
    omega
  rw [fits]
  refine addDuration_of_lt inRange.early inRange.late (by omega) ?_
  unfold nanosPerSecond
  omega

variable (small : proposal.globalRange.next < 2 ^ 64)
  (short : proposal.globalRange.next ≤ proposal.globalRange.first + 1000)

include small short

/-- The blocks of a proposal are a microsecond apart. -/
theorem blockTimestamp {number : GlobalBlockNumber} {time : Timestamp}
    (assigned : proposal.blockTimestamp number = some time) :
    proposal.globalRange.first ≤ number ∧ number < proposal.globalRange.next ∧
      time = proposal.timestamp + ((number - proposal.globalRange.first : Nat) : Int) * 1000 := by
  unfold Proposal.blockTimestamp at assigned
  split_ifs at assigned with covered
  rw [GlobalRange.has_iff] at covered
  obtain ⟨low, high⟩ := covered
  rw [sub64_of_le low (high.trans small), inRange.addMicros (by lia)] at assigned
  exact ⟨low, high, (Option.some.inj assigned).symm⟩

theorem nextTimestamp : proposal.nextTimestamp = proposal.timestamp +
    ((proposal.globalRange.next - proposal.globalRange.first : Nat) : Int) * 1000 := by
  rw [Proposal.nextTimestamp, GlobalRange.len, sub64_of_le inRange.numbers small,
    inRange.addMicros (by lia)]

end Proposal.InRange

/-! ### Chains of committed proposals -/

/-- Certificates of consecutive roads, the newest first: each is for a proposal that was accepted
against a view that holds the certificate before it. The first one is of the given epoch. -/
inductive CommittedChain [DecidableEq Digest] (crypto : Crypto Digest Sig) (epoch : Epoch) :
    List (CommitQC Sig) → Prop
  | nil : CommittedChain crypto epoch []
  | cons {qcs : List (CommitQC Sig)} (chain : CommittedChain crypto epoch qcs)
      {spec : ViewSpec Sig} (previous : spec.commitQC = qcs.head?)
      (genesis : qcs = [] → spec.epoch = epoch) {full : FullProposal Sig}
      (accepted : full.verify crypto spec = .ok ()) {qc : CommitQC Sig}
      (committed : qc.proposal = full.proposal.msg) : CommittedChain crypto epoch (qc :: qcs)

/-- The block `number` of one of the certificates has the timestamp `time`. -/
def Assigned (qcs : List (CommitQC Sig)) (number : GlobalBlockNumber) (time : Timestamp) : Prop :=
  ∃ qc ∈ qcs, qc.proposal.blockTimestamp number = some time

/-- Timestamps increase with the numbers, and everything assigned so far is before what the
newest certificate asks of the next proposal. -/
structure Increasing (epoch : Epoch) (qcs : List (CommitQC Sig)) : Prop where
  increasing : ∀ number time later laterTime, Assigned qcs number time →
    Assigned qcs later laterTime → number < later → time < laterTime
  start : ∀ number time, Assigned qcs number time → epoch.firstTimestamp ≤ time
  next : ∀ newest ∈ qcs.head?, epoch.firstTimestamp ≤ newest.proposal.nextTimestamp
  below : ∀ newest ∈ qcs.head?, ∀ number time, Assigned qcs number time →
    number < newest.proposal.globalRange.next ∧ time < newest.proposal.nextTimestamp

theorem assigned_cons {qc : CommitQC Sig} {qcs : List (CommitQC Sig)} {number : GlobalBlockNumber}
    {time : Timestamp} : Assigned (qc :: qcs) number time ↔
      qc.proposal.blockTimestamp number = some time ∨ Assigned qcs number time := by
  simp only [Assigned, mem_cons, exists_eq_or_imp]

/-- One more certificate. -/
theorem Increasing.commit [DecidableEq Digest] {epoch : Epoch} {qcs : List (CommitQC Sig)}
    (old : Increasing epoch qcs) (previous : spec.commitQC = qcs.head?)
    (genesis : qcs = [] → spec.epoch = epoch)
    (accepted : full.verify crypto spec = .ok ()) {qc : CommitQC Sig}
    (committed : qc.proposal = full.proposal.msg) (inRange : qc.proposal.InRange) :
    Increasing epoch (qc :: qcs) := by
  have fullInRange := inRange
  rw [committed] at fullInRange
  obtain ⟨small, short⟩ := full.len_le accepted fullInRange
  rw [← committed] at small short
  have blocks : ∀ number time, qc.proposal.blockTimestamp number = some time → _ :=
    fun _ _ assigned => inRange.blockTimestamp small short assigned
  have nextTime := inRange.nextTimestamp small short
  have numbers := inRange.numbers
  rw [verify] at accepted
  simp only [check_bind_eq_ok, ensure_eq_ok, ← committed] at accepted
  obtain ⟨-, starts, monotone, -⟩ := accepted
  -- What was assigned before is below the first block of the new certificate.
  obtain ⟨before, genesisTime⟩ : (∀ number time, Assigned qcs number time →
      number < qc.proposal.globalRange.first ∧ time < qc.proposal.timestamp) ∧
      epoch.firstTimestamp ≤ qc.proposal.timestamp := by
    rw [ViewSpec.nextGlobalBlock, previous] at starts
    rw [ViewSpec.nextTimestamp, previous] at monotone
    cases qcs with
    | nil => exact ⟨by rintro _ _ ⟨_, ⟨⟩, _⟩, genesis rfl ▸ monotone⟩
    | cons newest qcs =>
      refine ⟨fun number time assigned => ?_, (old.next newest rfl).trans monotone⟩
      obtain ⟨lowNumber, lowTime⟩ := old.below newest rfl number time assigned
      exact ⟨starts ▸ lowNumber, lowTime.trans_le monotone⟩
  constructor
  · intro number time later laterTime assigned laterAssigned less
    rcases assigned_cons.mp assigned with isNew | isOld <;>
      rcases assigned_cons.mp laterAssigned with laterNew | laterOld
    · have here := blocks _ _ isNew
      have there := blocks _ _ laterNew
      lia
    · have here := blocks _ _ isNew
      have there := before _ _ laterOld
      lia
    · have here := before _ _ isOld
      have there := blocks _ _ laterNew
      lia
    · exact old.increasing _ _ _ _ isOld laterOld less
  · intro number time assigned
    rcases assigned_cons.mp assigned with isNew | isOld
    · have here := blocks _ _ isNew
      lia
    · exact old.start _ _ isOld
  · rintro _ ⟨⟩
    lia
  · rintro _ ⟨⟩ number time assigned
    rcases assigned_cons.mp assigned with isNew | isOld
    · have here := blocks _ _ isNew
      lia
    · have here := before _ _ isOld
      lia

/-- Along every chain of committed proposals whose times and numbers stay in range, the
timestamps of the blocks strictly increase with their numbers, and none is before the first
timestamp of the epoch. -/
theorem block_timestamps_increase [DecidableEq Digest] (crypto : Crypto Digest Sig) (epoch : Epoch)
    (qcs : List (CommitQC Sig)) (chain : CommittedChain crypto epoch qcs)
    (inRange : ∀ qc ∈ qcs, qc.proposal.InRange) :
    (∀ number time later laterTime, Assigned qcs number time → Assigned qcs later laterTime →
      number < later → time < laterTime) ∧
    ∀ number time, Assigned qcs number time → epoch.firstTimestamp ≤ time := by
  have increasing : Increasing epoch qcs := by
    induction chain with
    | nil => exact ⟨nofun, nofun, nofun, nofun⟩
    | cons chain previous genesis accepted committed ih =>
      have old := ih fun qc member => inRange qc (mem_cons_of_mem _ member)
      exact old.commit previous genesis accepted committed (inRange _ mem_cons_self)
  exact ⟨increasing.increasing, increasing.start⟩

/-- The proposal of a road for two more blocks of a lane, at the given time. -/
def roadProposal (index : RoadIndex) (timestamp : Timestamp) : FullProposal Bool where
  proposal := sign openCrypto 1 .proposal (newProposal
    { index := index, number := 0, epochIndex := 0 } timestamp
    [{ lane := 1, first := 2 * index, next := 2 * index + 2, lastHash := 2 * index + 2 }] none
    (2 * index))
  laneQCs := [(1, {
    header := { lane := 1, blockNumber := 2 * index + 1, parentHash := 0, payloadHash := 0 }
    sigs := threeSignatures })]
  appQC := none
  timeoutQC := none

def roadQC (index : RoadIndex) (timestamp : Timestamp) : CommitQC Bool where
  vote := ⟨(roadProposal index timestamp).proposal.msg⟩
  sigs := threeSignatures

theorem committedChain_start {timestamp : Timestamp}
    (accepted : (roadProposal 0 timestamp).verify openCrypto
      { commitQC := none, timeoutQC := none, epoch := genesisEpoch fourCommittee 0 0 } = .ok ()) :
    CommittedChain openCrypto (genesisEpoch fourCommittee 0 0) [roadQC 0 timestamp] :=
  .cons .nil rfl (fun _ => rfl) accepted rfl

theorem block_timestamps_increase_roads :
    CommittedChain openCrypto (genesisEpoch fourCommittee 0 0) [roadQC 1 5000, roadQC 0 7] ∧
    ∀ number time later laterTime, Assigned [roadQC 1 5000, roadQC 0 7] number time →
      Assigned [roadQC 1 5000, roadQC 0 7] later laterTime → number < later → time < laterTime := by
  have second : (roadProposal 1 5000).verify openCrypto
      { commitQC := some (roadQC 0 7), timeoutQC := none, epoch := genesisEpoch fourCommittee 0 0 } =
      .ok () := by
    decide +kernel
  have chain : CommittedChain openCrypto (genesisEpoch fourCommittee 0 0)
      [roadQC 1 5000, roadQC 0 7] :=
    .cons (committedChain_start (by decide +kernel)) rfl nofun second rfl
  have inRange : ∀ qc ∈ [roadQC 1 5000, roadQC 0 7], qc.proposal.InRange := by
    intro qc member
    rcases mem_cons.mp member with rfl | inRest
    · exact ⟨by decide, by decide, by decide⟩
    · obtain rfl := mem_singleton.mp inRest
      exact ⟨by decide, by decide, by decide⟩
  exact ⟨chain, (block_timestamps_increase openCrypto _ _ chain inRange).1⟩

/-- A leader proposes a time half a microsecond before the end of the last second that a time can
represent. It is accepted, and the second block is almost a second earlier than the first. -/
theorem last_second_goes_back :
    CommittedChain openCrypto (genesisEpoch fourCommittee 0 0)
      [roadQC 0 ((2 ^ 63 - 1) * nanosPerSecond + 999999500)] ∧
    (roadQC 0 ((2 ^ 63 - 1) * nanosPerSecond + 999999500)).proposal.blockTimestamp 0 =
      some ((2 ^ 63 - 1) * nanosPerSecond + 999999500) ∧
    (roadQC 0 ((2 ^ 63 - 1) * nanosPerSecond + 999999500)).proposal.blockTimestamp 1 =
      some ((2 ^ 63 - 1) * nanosPerSecond + 500) :=
  ⟨committedChain_start (by decide +kernel), by decide +kernel, by decide +kernel⟩

end SeiChain.Autobahn
