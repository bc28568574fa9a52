/-
This file proves that two commit certificates of one road agree. The world
consists of the honest replicas, which take their steps in any order, and the
log of the votes they signed. Byzantine replicas are not modelled as machines:
any message may be delivered to any honest replica at any time, as long as the
valid signatures of honest replicas in it were made before. Every step keeps the
log lawful for locked voting, road by road, because a replica votes once in a
view, commits only before it gives the view up, and reports what it committed.
-/

import SeiChain.Autobahn.SignedVotes
import SeiChain.Library.Transition

namespace SeiChain.Autobahn

open Library List Function Option ReplicaEvent

variable {Digest Sig : Type}

/-! ### The network -/

/-- The honest replicas and the votes they have signed. -/
structure World (Digest Sig : Type) where
  replicas : PublicKey → Replica Digest Sig
  log : SignedLog

/-- All replicas start in the genesis epoch, without a vote or a certificate. -/
def World.genesis (Digest Sig : Type) (epoch : Epoch) : World Digest Sig where
  replicas _ := newReplica { epoch := epoch } none
  log := []

def worldStep [DecidableEq Digest] (crypto : Crypto Digest Sig) (world : World Digest Sig)
    (event : PublicKey × ReplicaEvent Sig) : Option (World Digest Sig) :=
  (replicaStep crypto event.1 (world.replicas event.1) event.2).map fun result =>
    { replicas := update world.replicas event.1 result.1
      log := result.2.map (fun msg => (event.1, msg)) ++ world.log }

/-- The signatures in the message that an event delivers. -/
def Call.signed : Call Sig → SignedMsgs Sig
  | .pushCommitQC qc => qc.signed
  | .pushTimeoutQC qc => qc.allSigned
  | .pushProposal full => full.allSigned
  | .pushPrepareQC qc => qc.signed
  | .voteTimeout _ => []

def ReplicaEvent.signed : ReplicaEvent Sig → SignedMsgs Sig
  | .check call => call.signed
  | .pushPrepareVote vote => [(.prepareVote vote.msg, vote.sig)]
  | .pushCommitVote vote => [(.commitVote vote.msg, vote.sig)]
  | .pushTimeoutVote vote => vote.allSigned
  | .lock _ | .outputs => []

/-- The event passes on a certificate that the replica's own aggregator made. -/
def ReplicaEvent.fromAggregator (replica : Replica Digest Sig) : ReplicaEvent Sig → Prop
  | .check (.pushPrepareQC qc) => replica.prepareVotes.qc = some qc
  | .check (.pushCommitQC qc) => replica.commitVotes.qc = some qc
  | .check (.pushTimeoutQC qc) => replica.timeoutVotes.qc = some qc
  | _ => False

/-- The numbers of a timeout certificate have successors in 64 bits. -/
structure TimeoutQC.NoWrap (qc : TimeoutQC Sig) : Prop where
  number : qc.view.number + 1 < 2 ^ 64
  reports : qc.ReportsDoNotWrap

/-- The numbers that views are computed from do not wrap around 64 bits. -/
def ReplicaEvent.noWrap : ReplicaEvent Sig → Prop
  | .check (.pushCommitQC qc) => qc.index + 1 < 2 ^ 64
  | .check (.pushTimeoutQC qc) => qc.NoWrap
  | .check (.pushProposal full) => ∀ qc, full.timeoutQC = some qc → qc.NoWrap
  | _ => True

/-- What may happen next: an honest replica takes a step, and the message delivered to it holds
no forged signature of an honest replica. -/
structure HonestStep (crypto : Crypto Digest Sig) (byzantine : Finset PublicKey)
    (world : World Digest Sig) (event : PublicKey × ReplicaEvent Sig) : Prop where
  honest : event.1 ∉ byzantine
  noWrap : event.2.noWrap
  authentic : event.2.fromAggregator (world.replicas event.1) ∨
    Authentic crypto byzantine world.log event.2.signed

/-! ### What holds of an honest replica -/

/-- The view that a vote is for. -/
def Msg.voteView : Msg → Option View
  | .prepareVote vote => some vote.proposal.view
  | .commitVote vote => some vote.proposal.view
  | .timeoutVote vote => some vote.view
  | .laneVote _ | .appVote _ | .proposal _ => none

section Invariant

variable (crypto : Crypto Digest Sig) (epoch : Epoch) (byzantine : Finset PublicKey)

/-- A timeout certificate on which a replica may act. -/
structure JustifiedTimeoutQC (log : SignedLog) (qc : TimeoutQC Sig) : Prop where
  sound : qc.Sound crypto epoch
  number : qc.view.number + 1 < 2 ^ 64
  authentic : Authentic crypto byzantine log qc.allSigned

/-- A prepare certificate on which a replica may act. -/
structure JustifiedPrepareQC (log : SignedLog) (qc : PrepareQC Sig) : Prop where
  verified : qc.verify crypto epoch = .ok ()
  authentic : Authentic crypto byzantine log qc.signed

/-- A proposal for the first view of its road, or one that repeats what the timeout certificate
of the view before forces. -/
def JustifiedProposal (log : SignedLog) (full : FullProposal Sig) : Prop :=
  full.view.number = 0 ∨ ∃ qc, JustifiedTimeoutQC crypto epoch byzantine log qc ∧
    full.view.index = qc.view.index ∧ full.view.number = qc.view.number + 1 ∧
    ∀ prepareQC, qc.latestPrepareQC = some prepareQC →
      full.proposal.msg.content = prepareQC.proposal.content

/-- What the checks of a call established for a replica that was at most at road `index`. -/
def CallJustified (log : SignedLog) (index : RoadIndex) : Call Sig → Prop
  | .pushCommitQC qc => qc.index + 1 < 2 ^ 64
  | .pushTimeoutQC qc =>
    JustifiedTimeoutQC crypto epoch byzantine log qc ∧ qc.view.index ≤ index
  | .pushProposal full => JustifiedProposal crypto epoch byzantine log full
  | .pushPrepareQC qc => JustifiedPrepareQC crypto epoch byzantine log qc
  | .voteTimeout _ => True

/-- The inner state of an honest replica and the votes it signed: its certificates are
justified, it signed no vote for a later view, and its state records each kind of vote that
it signed for the current view. -/
structure InnerInvariant (log : SignedLog) (key : PublicKey) (inner : Inner Sig) : Prop where
  rooted : inner.Rooted epoch
  timeoutQC : ∀ qc, inner.timeoutQC = some qc → JustifiedTimeoutQC crypto epoch byzantine log qc
  prepareQC : ∀ qc, inner.prepareQC = some qc →
    JustifiedPrepareQC crypto epoch byzantine log qc ∧ qc.view = inner.view
  notLater : ∀ msg view, (key, msg) ∈ log → msg.voteView = some view → inner.view.less view = false
  prepared : ∀ vote, (key, .prepareVote vote) ∈ log → vote.proposal.view = inner.view →
    inner.prepareVote.isSome
  committed : ∀ vote, (key, .commitVote vote) ∈ log → vote.proposal.view = inner.view →
    inner.prepareQC.isSome
  gaveUp : ∀ vote, (key, .timeoutVote vote) ∈ log → vote.view = inner.view →
    inner.timeoutVote.isSome

structure ReplicaInvariant (log : SignedLog) (key : PublicKey) (replica : Replica Digest Sig) :
    Prop where
  inner : InnerInvariant crypto epoch byzantine log key replica.inner
  myView : replica.myView.epoch = epoch
  calls : ∀ call ∈ replica.calls,
    CallJustified crypto epoch byzantine log replica.inner.view.index call
  prepareVotes : replica.prepareVotes.AuthenticBook crypto byzantine log (prepareVoteKind crypto)
    (fun vote => [(.prepareVote vote.msg, vote.sig)]) PrepareQC.signed
  commitVotes : replica.commitVotes.AuthenticBook crypto byzantine log (commitVoteKind crypto)
    (fun vote => [(.commitVote vote.msg, vote.sig)]) CommitQC.signed
  timeoutVotes : replica.timeoutVotes.AuthenticBook crypto byzantine log timeoutVoteKind
    FullTimeoutVote.allSigned TimeoutQC.allSigned

end Invariant

variable {crypto : Crypto Digest Sig} {epoch : Epoch} {byzantine : Finset PublicKey}
  {log larger : SignedLog} {key : PublicKey}

/-! #### A larger log -/

theorem JustifiedTimeoutQC.mono {qc : TimeoutQC Sig}
    (justified : JustifiedTimeoutQC crypto epoch byzantine log qc) (grows : log ⊆ larger) :
    JustifiedTimeoutQC crypto epoch byzantine larger qc :=
  { justified with authentic := justified.authentic.mono grows }

theorem JustifiedPrepareQC.mono {qc : PrepareQC Sig}
    (justified : JustifiedPrepareQC crypto epoch byzantine log qc) (grows : log ⊆ larger) :
    JustifiedPrepareQC crypto epoch byzantine larger qc :=
  { justified with authentic := justified.authentic.mono grows }

variable {call : Call Sig}

theorem CallJustified.mono {index higher : RoadIndex}
    (justified : CallJustified crypto epoch byzantine log index call) (grows : log ⊆ larger)
    (above : index ≤ higher) : CallJustified crypto epoch byzantine larger higher call := by
  cases call with
  | pushCommitQC qc => exact justified
  | pushTimeoutQC qc => exact ⟨justified.1.mono grows, le_trans justified.2 above⟩
  | pushProposal =>
    rcases justified with first | ⟨qc, justified, road, number, follows⟩
    · exact .inl first
    · exact .inr ⟨qc, justified.mono grows, road, number, follows⟩
  | pushPrepareQC qc => exact JustifiedPrepareQC.mono justified grows
  | voteTimeout => trivial

/-- Votes of other replicas do not matter. -/
theorem InnerInvariant.mono {inner : Inner Sig}
    (ok : InnerInvariant crypto epoch byzantine log key inner) (grows : log ⊆ larger)
    (others : ∀ msg, (key, msg) ∈ larger → (key, msg) ∈ log) :
    InnerInvariant crypto epoch byzantine larger key inner where
  rooted := ok.rooted
  timeoutQC qc isQC := (ok.timeoutQC qc isQC).mono grows
  prepareQC qc isQC := ⟨(ok.prepareQC qc isQC).1.mono grows, (ok.prepareQC qc isQC).2⟩
  notLater msg view inLog := ok.notLater msg view (others msg inLog)
  prepared vote inLog := ok.prepared vote (others _ inLog)
  committed vote inLog := ok.committed vote (others _ inLog)
  gaveUp vote inLog := ok.gaveUp vote (others _ inLog)

theorem ReplicaInvariant.mono {replica : Replica Digest Sig}
    (ok : ReplicaInvariant crypto epoch byzantine log key replica) (grows : log ⊆ larger)
    (others : ∀ msg, (key, msg) ∈ larger → (key, msg) ∈ log) :
    ReplicaInvariant crypto epoch byzantine larger key replica where
  inner := ok.inner.mono grows others
  myView := ok.myView
  calls call member := (ok.calls call member).mono grows le_rfl
  prepareVotes := ok.prepareVotes.mono grows
  commitVotes := ok.commitVotes.mono grows
  timeoutVotes := ok.timeoutVotes.mono grows

/-! #### Steps that lead to a later view -/

section

variable {inner : Inner Sig} (ok : InnerInvariant crypto epoch byzantine log key inner)

include ok

/-- A replica that enters a later view with justified certificates has no vote there yet. -/
theorem InnerInvariant.enter {next : Inner Sig} (enters : Inner.Enters epoch inner next)
    (timeoutQC : ∀ qc, next.timeoutQC = some qc →
      JustifiedTimeoutQC crypto epoch byzantine log qc) :
    InnerInvariant crypto epoch byzantine log key next := by
  have unvoted : ∀ msg view, (key, msg) ∈ log → msg.voteView = some view → view ≠ next.view := by
    rintro msg view inLog voted rfl
    exact absurd enters.later (by simp [ok.notLater msg _ inLog voted])
  refine ⟨enters.rooted, timeoutQC, by simp [enters.noPrepareQC], ?_, ?_, ?_, ?_⟩
  · intro msg view inLog voted
    by_contra less
    have less := View.less_trans enters.later (by simpa using less)
    rw [ok.notLater msg view inLog voted] at less
    cases less
  all_goals exact fun vote inLog here => absurd here (unvoted _ _ inLog rfl)

theorem InnerInvariant.lockCommitQC {qc : CommitQC Sig} (noWrap : qc.index + 1 < 2 ^ 64) :
    InnerInvariant crypto epoch byzantine log key (inner.lockCommitQC qc) ∧
      inner.view.index ≤ (inner.lockCommitQC qc).view.index := by
  rcases ok.rooted.lockCommitQC noWrap with same | enters
  · rw [same]
    exact ⟨ok, le_rfl⟩
  · refine ⟨ok.enter enters fun other isQC => ?_, enters.index_le ok.rooted⟩
    refine ok.timeoutQC other ?_
    unfold Inner.lockCommitQC at isQC
    split at isQC
    · exact isQC
    · cases isQC

theorem InnerInvariant.lockTimeoutQC {qc : TimeoutQC Sig}
    (justified : JustifiedTimeoutQC crypto epoch byzantine log qc)
    (reached : qc.view.index ≤ inner.view.index) :
    InnerInvariant crypto epoch byzantine log key (inner.lockTimeoutQC qc) ∧
      inner.view.index ≤ (inner.lockTimeoutQC qc).view.index := by
  rcases ok.rooted.lockTimeoutQC justified.sound.epochIndex justified.number reached with
    same | enters
  · rw [same]
    exact ⟨ok, le_rfl⟩
  · refine ⟨ok.enter enters fun other isQC => ?_, enters.index_le ok.rooted⟩
    unfold Inner.lockTimeoutQC at isQC
    split at isQC
    · exact ok.timeoutQC other isQC
    · cases isQC
      exact justified

/-! #### Steps that sign a vote -/

/-- A replica that signs a vote for its view and records it. -/
theorem InnerInvariant.cast {next : Inner Sig} {msg : Msg} (sameSpec : next.spec = inner.spec)
    (prepareQC : ∀ qc, next.prepareQC = some qc →
      JustifiedPrepareQC crypto epoch byzantine log qc ∧ qc.view = inner.view)
    (voted : msg.voteView = some inner.view)
    (prepared : inner.prepareVote.isSome ∨ (∃ vote, msg = .prepareVote vote) →
      next.prepareVote.isSome)
    (committed : inner.prepareQC.isSome ∨ (∃ vote, msg = .commitVote vote) → next.prepareQC.isSome)
    (gaveUp : inner.timeoutVote.isSome ∨ (∃ vote, msg = .timeoutVote vote) →
      next.timeoutVote.isSome) :
    InnerInvariant crypto epoch byzantine ((key, msg) :: log) key next := by
  have sameView : next.view = inner.view := congrArg ViewSpec.view sameSpec
  have grows : log ⊆ (key, msg) :: log := subset_cons_self _ _
  have sameTimeoutQC : next.timeoutQC = inner.timeoutQC := congrArg ViewSpec.timeoutQC sameSpec
  have earlier {other : Msg} (inLog : (key, other) ∈ (key, msg) :: log) :
      (key, other) ∈ log ∨ msg = other :=
    (mem_cons.mp inLog).symm.imp_right fun new => (Prod.mk.inj new).2.symm
  constructor
  · exact ok.rooted.of_spec_eq sameSpec
  · rw [sameTimeoutQC]
    exact fun qc isQC => (ok.timeoutQC qc isQC).mono grows
  · rw [sameView]
    exact fun qc isQC => ⟨(prepareQC qc isQC).1.mono grows, (prepareQC qc isQC).2⟩
  · rw [sameView]
    intro other view inLog otherVoted
    rcases earlier inLog with old | rfl
    · exact ok.notLater other view old otherVoted
    · rw [voted] at otherVoted
      cases otherVoted
      exact View.not_less_self inner.view
  · rw [sameView]
    exact fun vote inLog here =>
      prepared ((earlier inLog).imp (ok.prepared vote · here) fun isVote => ⟨vote, isVote⟩)
  · rw [sameView]
    exact fun vote inLog here =>
      committed ((earlier inLog).imp (ok.committed vote · here) fun isVote => ⟨vote, isVote⟩)
  · rw [sameView]
    exact fun vote inLog here =>
      gaveUp ((earlier inLog).imp (ok.gaveUp vote · here) fun isVote => ⟨vote, isVote⟩)

end

/-! ### The log stays lawful -/

section Lawful

variable (light : byzantine.sum epoch.committee.weight ≤ epoch.committee.faulty)

/-- On every road the honest votes follow the rules of locked voting. -/
def AllLawful (log : SignedLog) : Prop :=
  ∀ index, (epoch.committee.quorumSystem byzantine light).Lawful (roadVotes epoch index log)

variable {light}

theorem AllLawful.cons {msg : Msg} {view : View} {vote : LockedVote Proposal.Content}
    (lawful : AllLawful light log)
    (isVote : ∀ index, lockedVote epoch index (key, msg) =
      if view.index = index ∧ view.epochIndex = epoch.epochIndex then some (key, vote) else none)
    (allowed : view = ⟨view.index, view.number, epoch.epochIndex⟩ →
      (epoch.committee.quorumSystem byzantine light).Allows (roadVotes epoch view.index log) key
        vote) :
    AllLawful light ((key, msg) :: log) := by
  intro index
  unfold roadVotes
  by_cases here : view.index = index ∧ view.epochIndex = epoch.epochIndex
  · rw [filterMap_cons_some ((isVote index).trans (if_pos here))]
    obtain ⟨rfl, sameEpoch⟩ := here
    exact .cons (lawful _) (allowed (view_eq_of_epochIndex sameEpoch))
  · rw [filterMap_cons_none ((isVote index).trans (if_neg here))]
    exact lawful index

/-- What a step under the lock keeps: the state of the replica fits its votes, its road does not
go back, and the log with the new vote is lawful. -/
structure LockKeeps (crypto : Crypto Digest Sig)
    (light : byzantine.sum epoch.committee.weight ≤ epoch.committee.faulty) (log : SignedLog)
    (key : PublicKey) (inner : Inner Sig) (result : Inner Sig × List Msg) : Prop where
  fits : InnerInvariant crypto epoch byzantine (result.2.map (fun msg => (key, msg)) ++ log) key
    result.1
  road : inner.view.index ≤ result.1.view.index
  lawful : AllLawful light (result.2.map (fun msg => (key, msg)) ++ log)

variable {inner : Inner Sig} (ok : InnerInvariant crypto epoch byzantine log key inner)

include ok

theorem InnerInvariant.lockProposal [DecidableEq Digest] {full : FullProposal Sig}
    (lawful : AllLawful light log) (justified : JustifiedProposal crypto epoch byzantine log full) :
    LockKeeps crypto light log key inner (inner.lockProposal crypto key full) := by
  unfold Inner.lockProposal
  split
  · exact ⟨ok, le_rfl, lawful⟩
  · rename_i votes
    simp only [not_or, not_not, Bool.not_eq_true] at votes
    obtain ⟨sameView, _, unvoted⟩ := votes
    refine ⟨?_, le_rfl, lawful.cons (fun _ => rfl) fun viewIs => ?_⟩
    · exact ok.cast rfl ok.prepareQC (congrArg some sameView.symm) (fun _ => rfl)
        (·.resolve_right nofun) (·.resolve_right nofun)
    · refine .prepare ?_ ?_
      · intro other before
        obtain ⟨earlier, inLog, _, view⟩ := mem_roadVotes.mp before
        have recorded := ok.prepared earlier inLog (view.trans (sameView.trans viewIs).symm)
        rw [unvoted] at recorded
        cases recorded
      · rcases justified with first | ⟨qc, justified, road, number, follows⟩
        · exact .inl first
        · refine .inr ⟨qc.view.number, qc.lock, number, ?_, ?_⟩
          · have certified := timeoutCertified_of_sound light justified.sound justified.authentic
            rw [← road] at certified
            exact certified
          · intro top content locked
            obtain ⟨prepareQC, inherited, isLock⟩ := map_eq_some_iff.mp locked
            cases isLock
            exact follows prepareQC inherited

theorem InnerInvariant.lockPrepareQC {qc : PrepareQC Sig}
    (lawful : AllLawful light log) (justified : JustifiedPrepareQC crypto epoch byzantine log qc) :
    LockKeeps crypto light log key inner (inner.lockPrepareQC crypto key qc) := by
  unfold Inner.lockPrepareQC
  split
  · exact ⟨ok, le_rfl, lawful⟩
  · rename_i votes
    simp only [not_or, not_not, Bool.not_eq_true] at votes
    obtain ⟨sameView, stillOpen, unvoted⟩ := votes
    refine ⟨?_, le_rfl, lawful.cons (fun _ => rfl) fun viewIs => ?_⟩
    · refine ok.cast rfl ?_ (congrArg some sameView.symm) (·.resolve_right nofun) (fun _ => rfl)
        (·.resolve_right nofun)
      rintro _ ⟨⟩
      exact ⟨justified, sameView.symm⟩
    · refine .commit ?_ ?_ (certified_of_prepareQC light justified.verified justified.authentic)
      · intro other before
        obtain ⟨earlier, inLog, _, view⟩ := mem_roadVotes.mp before
        have recorded := ok.committed earlier inLog (view.trans (sameView.trans viewIs).symm)
        rw [unvoted] at recorded
        cases recorded
      · intro report before
        obtain ⟨earlier, inLog, _, view⟩ := mem_roadVotes.mp before
        have recorded := ok.gaveUp earlier inLog (view.trans (sameView.trans viewIs).symm)
        rw [stillOpen] at recorded
        cases recorded

/-- What a replica reports when it gives its view up is the view itself, or what it inherited
with the timeout certificate of the view before. -/
theorem InnerInvariant.report :
    (inner.reportedPrepareQC.map fun qc => qc.view.number) = some inner.view.number ∨
    (inner.view.number = 0 ∧ (inner.reportedPrepareQC.map fun qc => qc.view.number) = none) ∨
    ∃ before lock, inner.view.number = before + 1 ∧
      (epoch.committee.quorumSystem byzantine light).TimeoutCertified
        (roadVotes epoch inner.view.index log) before lock ∧
      (inner.reportedPrepareQC.map fun qc => qc.view.number) = lock.map Prod.fst := by
  cases isQC : inner.prepareQC with
  | some qc =>
    refine .inl ?_
    rw [Inner.reportedPrepareQC, isQC, map_some, (ok.prepareQC qc isQC).2]
  | none =>
    cases timedOut : inner.timeoutQC with
    | some qc =>
      have justified := ok.timeoutQC qc timedOut
      obtain ⟨road, number⟩ := ok.rooted.timeoutQC qc timedOut
      rw [Inner.reportedPrepareQC, isQC, timedOut, Inner.view_of_timeoutQC timedOut road number]
      refine .inr (.inr ⟨qc.view.number, qc.lock, rfl, ?_, ?_⟩)
      · exact timeoutCertified_of_sound light justified.sound justified.authentic
      · rw [TimeoutQC.lock, Option.map_map]
        rfl
    | none =>
      rw [Inner.reportedPrepareQC, isQC, timedOut, Inner.view_of_none timedOut]
      exact .inr (.inl ⟨rfl, rfl⟩)

theorem InnerInvariant.lockVoteTimeout {view : View} (lawful : AllLawful light log) :
    LockKeeps crypto light log key inner (inner.lockVoteTimeout crypto key view) := by
  unfold Inner.lockVoteTimeout
  split
  · exact ⟨ok, le_rfl, lawful⟩
  · rename_i votes
    simp only [not_or, not_not, Bool.not_eq_true] at votes
    obtain ⟨rfl, -⟩ := votes
    refine ⟨?_, le_rfl, lawful.cons (fun _ => rfl) fun viewIs => ?_⟩
    · exact ok.cast rfl ok.prepareQC rfl (·.resolve_right nofun) (·.resolve_right nofun)
        fun _ => rfl
    · refine .timeout ?_ ok.report
      intro content before
      obtain ⟨earlier, inLog, _, earlierView⟩ := mem_roadVotes.mp before
      have recorded := ok.committed earlier inLog (earlierView.trans viewIs.symm)
      obtain ⟨qc, isQC⟩ := isSome_iff_exists.mp recorded
      show (inner.reportedPrepareQC.map fun qc => qc.view.number) = some inner.view.number
      rw [Inner.reportedPrepareQC, isQC, map_some, (ok.prepareQC qc isQC).2]

end Lawful

/-! ### Every step of a replica -/

variable {light : byzantine.sum epoch.committee.weight ≤ epoch.committee.faulty}

section Step

variable [DecidableEq Digest] {replica after : Replica Digest Sig}
  (ok : ReplicaInvariant crypto epoch byzantine log key replica)

include ok

/-- What the checks of a call establish about the message it brings. -/
theorem ReplicaInvariant.callJustified (noWrap : (check call).noWrap)
    (authentic : (check call).fromAggregator replica ∨ Authentic crypto byzantine log call.signed)
    (verified : replica.checkCall crypto call = .verified) :
    CallJustified crypto epoch byzantine log replica.inner.view.index call := by
  cases call with
  | pushCommitQC qc => exact noWrap
  | pushTimeoutQC qc =>
    have qcAuthentic : Authentic crypto byzantine log qc.allSigned :=
      authentic.elim (ok.timeoutVotes.qc qc) id
    rw [Replica.checkCall, ok.inner.rooted.sameEpoch] at verified
    split at verified
    · cases verified
    rename_i reached
    split at verified
    · cases verified
    have sound :=
      TimeoutQC.sound_of_verify noWrap.reports (CallOutcome.ofCheck_eq_verified.mp verified)
    exact ⟨⟨sound, noWrap.number, qcAuthentic⟩, not_lt.mp reached⟩
  | pushProposal full =>
    have fullAuthentic : Authentic crypto byzantine log full.allSigned := authentic.elim nofun id
    rw [Replica.checkCall] at verified
    split at verified
    · cases verified
    split at verified
    · cases verified
    obtain first | ⟨qc, isQC, qcVerified, road, number, follows⟩ :=
      FullProposal.verify_spec (fun qc isQC => (noWrap qc isQC).number)
        (CallOutcome.ofCheck_eq_verified.mp verified)
    · exact .inl first
    · rw [ok.myView] at qcVerified
      have sound := TimeoutQC.sound_of_verify (noWrap qc isQC).reports qcVerified
      have qcAuthentic : Authentic crypto byzantine log qc.allSigned := by
        rw [FullProposal.allSigned, isQC] at fullAuthentic
        exact (authentic_append.mp fullAuthentic).2
      exact .inr ⟨qc, ⟨sound, (noWrap qc isQC).number, qcAuthentic⟩, road, number, follows⟩
  | pushPrepareQC qc =>
    have qcAuthentic : Authentic crypto byzantine log qc.signed :=
      authentic.elim (ok.prepareVotes.qc qc) id
    rw [Replica.checkCall, ok.myView] at verified
    split at verified
    · cases verified
    split at verified
    · cases verified
    exact ⟨CallOutcome.ofCheck_eq_verified.mp verified, qcAuthentic⟩
  | voteTimeout => trivial

/-- What a call does under the lock, once its checks have established what they do. -/
theorem ReplicaInvariant.lockCall (lawful : AllLawful light log)
    (justified : CallJustified crypto epoch byzantine log replica.inner.view.index call) :
    LockKeeps crypto light log key replica.inner (replica.lockCall crypto key call) := by
  cases call with
  | pushCommitQC qc =>
    obtain ⟨fits, road⟩ := ok.inner.lockCommitQC justified
    exact ⟨fits, road, lawful⟩
  | pushTimeoutQC qc =>
    obtain ⟨fits, road⟩ := ok.inner.lockTimeoutQC justified.1 justified.2
    exact ⟨fits, road, lawful⟩
  | pushProposal => exact ok.inner.lockProposal lawful justified
  | pushPrepareQC qc => exact ok.inner.lockPrepareQC lawful justified
  | voteTimeout => exact ok.inner.lockVoteTimeout lawful

omit [DecidableEq Digest] in
theorem ReplicaInvariant.outputsStep :
    ReplicaInvariant crypto epoch byzantine log key replica.outputsStep := by
  unfold Replica.outputsStep
  split
  · refine { ok with myView := ?_ }
    dsimp only
    split
    · exact ok.inner.rooted.sameEpoch
    · exact ok.myView
  all_goals exact { ok with }

/-- Every step of an honest replica keeps its invariant and the lawfulness of the log. -/
theorem ReplicaInvariant.step {event : ReplicaEvent Sig} {signed : List Msg}
    (lawful : AllLawful light log) (noWrap : event.noWrap)
    (authentic : event.fromAggregator replica ∨ Authentic crypto byzantine log event.signed)
    (taken : replicaStep crypto key replica event = some (after, signed)) :
    ReplicaInvariant crypto epoch byzantine (signed.map (fun msg => (key, msg)) ++ log) key after ∧
      AllLawful light (signed.map (fun msg => (key, msg)) ++ log) := by
  cases event with
  | check call =>
    obtain ⟨verified, ⟨⟩⟩ := ite_none_right_eq_some.mp taken
    have justified := ok.callJustified noWrap authentic verified
    refine ⟨{ ok with calls := fun other member => ?_ }, lawful⟩
    rcases mem_cons.mp member with rfl | old
    · exact justified
    · exact ok.calls other old
  | lock =>
    rw [replicaStep] at taken
    split at taken
    · cases taken
    rename_i call isCall
    cases taken
    have keeps := ok.lockCall lawful (ok.calls call (mem_of_getElem? isCall))
    have grows := subset_append_right
      ((replica.lockCall crypto key call).2.map fun msg => (key, msg)) log
    refine ⟨⟨keeps.fits, ok.myView, fun other member => ?_,
      ok.prepareVotes.mono grows, ok.commitVotes.mono grows,
      ok.timeoutVotes.mono grows⟩, keeps.lawful⟩
    exact (ok.calls other (mem_of_mem_eraseIdx member)).mono grows keeps.road
  | pushPrepareVote vote =>
    have voteAuthentic := authentic.resolve_left nofun
    rw [replicaStep] at taken
    split at taken <;> cases taken
    exact ⟨{ ok with prepareVotes :=
      ok.prepareVotes.pushVote (prepareVotes_makesAuthentic log) voteAuthentic }, lawful⟩
  | pushCommitVote vote =>
    have voteAuthentic := authentic.resolve_left nofun
    rw [replicaStep] at taken
    split at taken <;> cases taken
    exact ⟨{ ok with commitVotes :=
      ok.commitVotes.pushVote (commitVotes_makesAuthentic log) voteAuthentic }, lawful⟩
  | pushTimeoutVote vote =>
    have voteAuthentic := authentic.resolve_left nofun
    rw [replicaStep] at taken
    split at taken <;> cases taken
    exact ⟨{ ok with timeoutVotes :=
      ok.timeoutVotes.pushVote (timeoutVotes_makesAuthentic log) voteAuthentic }, lawful⟩
  | outputs =>
    cases taken
    exact ⟨ok.outputsStep, lawful⟩

end Step

/-! ### Agreement -/

section Agreement

variable [DecidableEq Digest]

structure WorldInvariant (crypto : Crypto Digest Sig) (epoch : Epoch)
    (light : byzantine.sum epoch.committee.weight ≤ epoch.committee.faulty)
    (world : World Digest Sig) : Prop where
  replicas : ∀ key, key ∉ byzantine →
    ReplicaInvariant crypto epoch byzantine world.log key (world.replicas key)
  lawful : AllLawful light world.log

omit [DecidableEq Digest] in
theorem worldInvariant_genesis
    (light : byzantine.sum epoch.committee.weight ≤ epoch.committee.faulty) :
    WorldInvariant crypto epoch light (World.genesis Digest Sig epoch) where
  replicas _ _ :=
    { inner := ⟨⟨rfl, nofun, nofun⟩, nofun, nofun, nofun, nofun, nofun, nofun⟩
      myView := rfl
      calls := nofun
      prepareVotes := ⟨nofun, nofun⟩
      commitVotes := ⟨nofun, nofun⟩
      timeoutVotes := ⟨nofun, nofun⟩ }
  lawful _ := .nil

theorem WorldInvariant.step {world after : World Digest Sig} {event : PublicKey × ReplicaEvent Sig}
    (ok : WorldInvariant crypto epoch light world)
    (admitted : HonestStep crypto byzantine world event)
    (taken : worldStep crypto world event = some after) :
    WorldInvariant crypto epoch light after := by
  obtain ⟨⟨replica, signed⟩, stepped, rfl⟩ := map_eq_some_iff.mp taken
  obtain ⟨fits, lawful⟩ := (ok.replicas event.1 admitted.honest).step ok.lawful
    admitted.noWrap admitted.authentic stepped
  refine ⟨fun key honest => ?_, lawful⟩
  dsimp only
  by_cases same : key = event.1
  · subst same
    rw [update_self]
    exact fits
  · rw [update_of_ne same]
    refine (ok.replicas key honest).mono (subset_append_right _ _) fun msg inLog => ?_
    rcases mem_append.mp inLog with new | old
    · obtain ⟨_, _, isEntry⟩ := mem_map.mp new
      exact absurd (congrArg Prod.fst isEntry).symm same
    · exact old

/-- Agreement. Whatever Byzantine replicas of total weight at most `Faulty()` send, and however
the steps of the honest replicas are interleaved, two commit certificates that verify for
the genesis epoch and are of one road agree on everything but the view number. -/
theorem commitQC_agreement (crypto : Crypto Digest Sig) (committee : Committee)
    (firstBlock : GlobalBlockNumber) (genesisTimestamp : Timestamp)
    (byzantine : Finset PublicKey) (light : byzantine.sum committee.weight ≤ committee.faulty)
    (world : World Digest Sig)
    (reached : Reaches (worldStep crypto) (HonestStep crypto byzantine)
      (World.genesis Digest Sig (genesisEpoch committee firstBlock genesisTimestamp)) world)
    (first second : CommitQC Sig)
    (firstVerified : first.verify crypto (genesisEpoch committee firstBlock genesisTimestamp) = .ok ())
    (secondVerified :
      second.verify crypto (genesisEpoch committee firstBlock genesisTimestamp) = .ok ())
    (firstAuthentic : Authentic crypto byzantine world.log first.signed)
    (secondAuthentic : Authentic crypto byzantine world.log second.signed)
    (sameRoad : first.index = second.index) :
    first.proposal.laneRanges = second.proposal.laneRanges ∧
      first.globalRange = second.globalRange ∧
      first.proposal.timestamp = second.proposal.timestamp ∧
      first.proposal.app = second.proposal.app := by
  have invariant : WorldInvariant crypto (genesisEpoch committee firstBlock genesisTimestamp) light
      world :=
    reached.invariant (worldInvariant_genesis light) fun _ _ _ => WorldInvariant.step
  have firstCommitted := certified_of_commitQC light firstVerified firstAuthentic
  have secondCommitted := certified_of_commitQC light secondVerified secondAuthentic
  rw [← sameRoad] at secondCommitted
  have same : first.proposal.content = second.proposal.content :=
    (invariant.lawful first.index).agreement firstCommitted secondCommitted
  have sameRange : first.globalRange = second.globalRange :=
    Proposal.globalRange_eq_of_content_eq same
  simp only [Proposal.content, Proposal.Content.mk.injEq] at same
  exact ⟨same.2.1, sameRange, same.1, same.2.2.1⟩

/-- A commit fixes what may be prepared: a prepare certificate that an honest replica holds in
the view of the commit, or in a later view of the road, has the content that was committed. -/
theorem prepareQC_after_commitQC {world : World Digest Sig} {qc : CommitQC Sig}
    {held : PrepareQC Sig} (light : byzantine.sum epoch.committee.weight ≤ epoch.committee.faulty)
    (reached : Reaches (worldStep crypto) (HonestStep crypto byzantine)
      (World.genesis Digest Sig epoch) world)
    (verified : qc.verify crypto epoch = .ok ())
    (authentic : Authentic crypto byzantine world.log qc.signed) (honest : key ∉ byzantine)
    (holds : (world.replicas key).inner.prepareQC = some held)
    (sameRoad : held.view.index = qc.index)
    (after : qc.proposal.view.number ≤ held.view.number) :
    held.proposal.content = qc.proposal.content := by
  have invariant := reached.invariant (worldInvariant_genesis light) fun _ _ _ => .step
  have lawful := invariant.lawful qc.index
  have justified := ((invariant.replicas key honest).inner.prepareQC held holds).1
  have prepared := certified_of_prepareQC light justified.verified justified.authentic
  have committed := certified_of_commitQC light verified authentic
  rw [sameRoad] at prepared
  rcases eq_or_lt_of_le after with same | below
  · obtain ⟨_, commits, _⟩ := committed.common committed
    rw [← same] at prepared
    exact lawful.certified_prepare_unique prepared (lawful.prepared_of_commit commits)
  · obtain ⟨_, prepares, _⟩ := prepared.common prepared
    exact lawful.prepare_of_commit committed lawful (List.Subset.refl _) prepares below

end Agreement

/-! ### A network of four replicas -/

def signedBy (keys : List PublicKey) : List (Signature Bool) :=
  keys.map fun key => { key, sig := true }

/-- The first block of the first lane, proposed in a view of the first road. -/
def proposalIn (number : ViewNumber) : Proposal :=
  newProposal { index := 0, number, epochIndex := 0 } 0
    [{ lane := 1, first := 0, next := 1, lastHash := 1 }] none 0

def prepareQCIn (number : ViewNumber) (keys : List PublicKey) : PrepareQC Bool where
  vote := { proposal := proposalIn number }
  sigs := signedBy keys

def commitQCIn (number : ViewNumber) (keys : List PublicKey) : CommitQC Bool where
  vote := { proposal := proposalIn number }
  sigs := signedBy keys

def freshProposal : FullProposal Bool where
  proposal := sign openCrypto 1 .proposal (proposalIn 0)
  laneQCs := [(1, { header := { lane := 1, blockNumber := 0, parentHash := 0, payloadHash := 0 }
                    sigs := signedBy [1, 4] })]
  appQC := none
  timeoutQC := none

/-- The second replica reports its prepare certificate, the third one has none and the fourth one
conceals its own. -/
def firstTimeoutQC : TimeoutQC Bool :=
  let timeout (key : PublicKey) (latestPrepareQC : Option ViewNumber) :=
    sign openCrypto key .timeoutVote { view := (proposalIn 0).view, latestPrepareQC }
  { first := timeout 4 none
    rest := [timeout 3 none, timeout 2 (some 0)]
    latestPrepareQC := some (prepareQCIn 0 [1, 2, 4]) }

def repeatedProposal : FullProposal Bool where
  proposal := sign openCrypto 1 .proposal (proposalIn 1)
  laneQCs := []
  appQC := none
  timeoutQC := some firstTimeoutQC

/-- A message comes in and is acted upon. -/
def delivered (call : Call Bool) (keys : List PublicKey) : List (PublicKey × ReplicaEvent Bool) :=
  keys.flatMap fun key => [(key, .check call), (key, .lock 0)]

/-- The first two replicas prepare and commit the proposal with the help of the fourth one, which
is Byzantine, but the third one does not see it. The first view is given up, the second one repeats
the proposal, and the third replica commits it there. -/
def repeatedRun : List (PublicKey × ReplicaEvent Bool) :=
  delivered (.pushProposal freshProposal) [1, 2] ++
    delivered (.pushPrepareQC (prepareQCIn 0 [1, 2, 4])) [1, 2] ++
    delivered (.voteTimeout (proposalIn 0).view) [2, 3] ++
    delivered (.pushTimeoutQC firstTimeoutQC) [2, 3] ++ [(2, .outputs), (3, .outputs)] ++
    delivered (.pushProposal repeatedProposal) [2, 3] ++
    delivered (.pushPrepareQC (prepareQCIn 1 [2, 3, 4])) [2, 3]

def fourEpoch : Epoch := genesisEpoch fourCommittee 0 0

instance decidableTimeoutNoWrap (qc : TimeoutQC Sig) : Decidable qc.NoWrap :=
  decidable_of_iff (qc.view.number + 1 < 2 ^ 64 ∧
      ∀ vote ∈ qc.votes, ∀ number ∈ vote.msg.latestPrepareQC, number + 1 < 2 ^ 64)
    ⟨fun small => ⟨small.1, small.2⟩, fun small => ⟨small.number, small.reports⟩⟩

instance decidableNoWrap : (event : ReplicaEvent Sig) → Decidable event.noWrap
  | .check (.pushProposal full) =>
    inferInstanceAs (Decidable (∀ qc ∈ full.timeoutQC, qc.NoWrap))
  | .check (.pushCommitQC qc) => inferInstanceAs (Decidable (qc.index + 1 < 2 ^ 64))
  | .check (.pushTimeoutQC qc) => inferInstanceAs (Decidable qc.NoWrap)
  | .check (.pushPrepareQC _) | .check (.voteTimeout _) | .lock _ | .pushPrepareVote _
  | .pushCommitVote _ | .pushTimeoutVote _ | .outputs => .isTrue trivial

theorem exists_repeatedRun : ∃ world,
    Reaches (worldStep openCrypto) (HonestStep openCrypto {4})
      (World.genesis Msg Bool fourEpoch) world ∧
    Authentic openCrypto {4} world.log (commitQCIn 0 [1, 2, 4]).signed ∧
    Authentic openCrypto {4} world.log (commitQCIn 1 [2, 3, 4]).signed ∧
    (world.replicas 3).inner.prepareQC = some (prepareQCIn 1 [2, 3, 4]) := by
  refine exists_reaches_of_checked (fun world event => event.1 ∉ ({4} : Finset PublicKey) ∧
    event.2.noWrap ∧ Authentic openCrypto {4} world.log event.2.signed)
    (fun _ _ checked => ?_) repeatedRun (by decide +kernel)
  obtain ⟨honest, noWrap, authentic⟩ := of_decide_eq_true checked
  exact ⟨honest, noWrap, .inr authentic⟩

/-- The certificates of both views agree. -/
theorem commitQC_agreement_repeated :
    (commitQCIn 0 [1, 2, 4]).globalRange = (commitQCIn 1 [2, 3, 4]).globalRange := by
  obtain ⟨world, reached, first, second, -⟩ := exists_repeatedRun
  exact (commitQC_agreement openCrypto fourCommittee 0 0 {4} (by decide) world reached _ _
    (by decide +kernel) (by decide +kernel) first second rfl).2.1

theorem prepareQC_after_commitQC_repeated :
    (prepareQCIn 1 [2, 3, 4]).proposal.content = (commitQCIn 0 [1, 2, 4]).proposal.content := by
  obtain ⟨world, reached, first, -, holds⟩ := exists_repeatedRun
  exact prepareQC_after_commitQC (by decide) reached (by decide +kernel) first (by decide) holds rfl
    (Nat.zero_le _)

end SeiChain.Autobahn
