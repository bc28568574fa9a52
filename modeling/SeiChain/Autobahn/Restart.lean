/-
This file proves that a replica does not vote twice across crashes. The replica
of the consensus model runs any sequence of its steps and may die and come back
at any point; all that survives is what the persister holds. The argument orders
the states of the replica by view and, within a view, by the votes they hold.
The persisted state precedes the snapshot that the output loop works on, which
precedes the inner state, and every published vote is covered by the persisted
state. A restart falls back to the persisted state, so it forgets only votes
that nobody has seen. The order needs view numbers that do not wrap around.
-/

import SeiChain.Autobahn.Certificates
import SeiChain.Autobahn.Consensus
import SeiChain.Library.Transition

namespace SeiChain.Autobahn

open Library List Option Replica

variable {Digest Sig : Type}

/-! ### Restoring the inner state -/

/-- The fields of the persisted state, as its errors name them. -/
inductive PersistedPart where
  | commitQC
  | timeoutQC
  | prepareQC
  | commitVote
  | prepareVote
  | timeoutVote
  deriving DecidableEq, Repr

/-- Why persisted state is corrupt. -/
inductive CorruptState where
  | verification (part : PersistedPart) (error : VerifyError)
  | timeoutQCIndex (got want : RoadIndex)
  | view (part : PersistedPart) (got want : View)
  | commitVoteWithoutPrepareQC
  deriving DecidableEq, Repr

def checkPart (part : PersistedPart) (check : Check) : Except CorruptState Unit :=
  check.mapError (.verification part)

def checkViewAndSig (part : PersistedPart) (view current : View) (check : Check) :
    Except CorruptState Unit :=
  if view ≠ current then .error (.view part view current) else checkPart part check

namespace PersistedInner

def validate (persisted : PersistedInner Sig) (crypto : Crypto Digest Sig) (epoch : Epoch) :
    Except CorruptState Unit := do
  match persisted.commitQC with
  | some qc => checkPart .commitQC (qc.verify crypto epoch)
  | none => .ok ()
  match persisted.timeoutQC with
  | some qc =>
    if qc.view.index ≠ nextIndexOpt persisted.commitQC then
      .error (.timeoutQCIndex qc.view.index (nextIndexOpt persisted.commitQC))
    else checkPart .timeoutQC (qc.verify crypto epoch persisted.commitQC)
  | none => .ok ()
  let current := (Inner.mk persisted epoch).view
  match persisted.prepareQC with
  | some qc => checkViewAndSig .prepareQC qc.view current (qc.verify crypto epoch)
  | none => if persisted.commitVote.isSome then .error .commitVoteWithoutPrepareQC else .ok ()
  match persisted.commitVote with
  | some vote =>
    checkViewAndSig .commitVote vote.msg.proposal.view current
      (verifySig crypto epoch.committee (.commitVote vote.msg) vote.sig)
  | none => .ok ()
  match persisted.prepareVote with
  | some vote =>
    checkViewAndSig .prepareVote vote.msg.proposal.view current
      (verifySig crypto epoch.committee (.prepareVote vote.msg) vote.sig)
  | none => .ok ()
  match persisted.timeoutVote with
  | some vote => checkViewAndSig .timeoutVote vote.view current (vote.verify crypto epoch)
  | none => .ok ()

end PersistedInner

/-- `newInner`: without data the state is the initial one. -/
def newInner (crypto : Crypto Digest Sig) (epoch : Epoch) (data : Option (PersistedInner Sig)) :
    Except CorruptState (Inner Sig) := do
  let persisted := data.getD {}
  persisted.validate crypto epoch
  .ok (Inner.mk persisted epoch)

variable {crypto : Crypto Digest Sig} {inner : Inner Sig}

theorem eq_of_newInner {epoch : Epoch} {data : Option (PersistedInner Sig)}
    (restored : newInner crypto epoch data = .ok inner) : inner = Inner.mk (data.getD {}) epoch := by
  obtain ⟨_, _, restored⟩ := exceptBind_eq_ok.mp restored
  exact (Except.ok.inj restored).symm

/-! ### A replica that restarts -/

/-- A replica with every vote it has ever published. -/
structure Node (Digest Sig : Type) where
  replica : Replica Digest Sig
  sentPrepareVotes : List (Signed PrepareVote Sig)
  sentCommitVotes : List (Signed CommitVote Sig)
  sentTimeoutVotes : List (FullTimeoutVote Sig)

inductive NodeEvent (Sig : Type) where
  | step (event : ReplicaEvent Sig)
  /-- The process dies and comes back with what the persister holds. -/
  | restart

/-- Continue with `replica` and note what it publishes. -/
def Node.observe (node : Node Digest Sig) (replica : Replica Digest Sig) : Node Digest Sig where
  replica := replica
  sentPrepareVotes := replica.myPrepareVote.toList ++ node.sentPrepareVotes
  sentCommitVotes := replica.myCommitVote.toList ++ node.sentCommitVotes
  sentTimeoutVotes := replica.myTimeoutVote.toList ++ node.sentTimeoutVotes

/-- The replica on its first start. -/
def Node.start (Digest Sig : Type) (epoch : Epoch) : Node Digest Sig where
  replica := newReplica { epoch := epoch } none
  sentPrepareVotes := []
  sentCommitVotes := []
  sentTimeoutVotes := []

/-- One step of the replica or a restart; persisted state that is corrupt is not restored. -/
def nodeStep [DecidableEq Digest] (crypto : Crypto Digest Sig) (epoch : Epoch) (key : PublicKey)
    (node : Node Digest Sig) : NodeEvent Sig → Option (Node Digest Sig)
  | .step event =>
    (replicaStep crypto key node.replica event).map fun result => node.observe result.1
  | .restart =>
    match newInner crypto epoch node.replica.persisted with
    | .error _ => none
    | .ok inner => some (node.observe (newReplica inner node.replica.persisted))

/-- Of each kind, the published votes for one view are the same. -/
structure Node.NoDoubleVote (node : Node Digest Sig) : Prop where
  prepare : ∀ first ∈ node.sentPrepareVotes, ∀ second ∈ node.sentPrepareVotes,
    first.msg.proposal.view = second.msg.proposal.view → first.msg.proposal = second.msg.proposal
  commit : ∀ first ∈ node.sentCommitVotes, ∀ second ∈ node.sentCommitVotes,
    first.msg.proposal.view = second.msg.proposal.view → first.msg.proposal = second.msg.proposal
  timeout : ∀ first ∈ node.sentTimeoutVotes, ∀ second ∈ node.sentTimeoutVotes,
    first.view = second.view → first.vote.msg = second.vote.msg

/-- No step from here signs a commit vote for a view that a published timeout vote gave up. -/
def Node.NoLateCommit [DecidableEq Digest] (crypto : Crypto Digest Sig) (key : PublicKey)
    (node : Node Digest Sig) : Prop :=
  ∀ event after signed, replicaStep crypto key node.replica event = some (after, signed) →
    ∀ vote, .commitVote vote ∈ signed →
      ∀ timeout ∈ node.sentTimeoutVotes, timeout.view ≠ vote.proposal.view

/-- The number of a view that a certificate leads to does not wrap around 64 bits. -/
def NodeEvent.noWrap : NodeEvent Sig → Prop
  | .step (.check (.pushCommitQC qc)) => qc.index + 1 < 2 ^ 64
  | .step (.check (.pushTimeoutQC qc)) => qc.view.number + 1 < 2 ^ 64
  | _ => True

instance (event : NodeEvent Sig) : Decidable event.noWrap := by
  unfold NodeEvent.noWrap
  split <;> infer_instance

/-! ### Votes that survive a restart -/

/-- One of the three votes of a state, with the view that it is for. -/
structure VoteSlot (Sig Vote : Type) where
  get : PersistedInner Sig → Option Vote
  view : Vote → View

def prepareSlot : VoteSlot Sig (Signed PrepareVote Sig) where
  get := PersistedInner.prepareVote
  view vote := vote.msg.proposal.view

def commitSlot : VoteSlot Sig (Signed CommitVote Sig) where
  get := PersistedInner.commitVote
  view vote := vote.msg.proposal.view

def timeoutSlot : VoteSlot Sig (FullTimeoutVote Sig) where
  get := PersistedInner.timeoutVote
  view := FullTimeoutVote.view

namespace VoteSlot

variable {Vote : Type} {slot : VoteSlot Sig Vote} {older newer : Inner Sig}

/-- A vote that is held is for the view of the state. -/
def HoldsHere (slot : VoteSlot Sig Vote) (inner : Inner Sig) : Prop :=
  ∀ vote, slot.get inner.toPersistedInner = some vote → slot.view vote = inner.view

/-- A vote that is held is held in `newer` as well. -/
def Keeps (slot : VoteSlot Sig Vote) (older newer : Inner Sig) : Prop :=
  ∀ vote, slot.get older.toPersistedInner = some vote → slot.get newer.toPersistedInner = some vote

end VoteSlot

namespace Inner

variable {epoch : Epoch} {next older newer : Inner Sig}

/-- A state that is its own justification: its view follows from its certificates, its votes
are for this view, and a commit vote comes with its prepare certificate. -/
structure Sealed (inner : Inner Sig) (epoch : Epoch) : Prop where
  rooted : inner.Rooted epoch
  prepareVote : prepareSlot.HoldsHere inner
  commitVote : commitSlot.HoldsHere inner
  timeoutVote : timeoutSlot.HoldsHere inner
  justified : inner.commitVote.isSome → inner.prepareQC.isSome

/-- `newer` is in a later view, or in the same view with the same votes and perhaps more. -/
def Precedes (older newer : Inner Sig) : Prop :=
  older.view.less newer.view = true ∨ older.view = newer.view ∧
    prepareSlot.Keeps older newer ∧ commitSlot.Keeps older newer ∧ timeoutSlot.Keeps older newer

theorem Precedes.refl (inner : Inner Sig) : inner.Precedes inner :=
  .inr ⟨rfl, fun _ => id, fun _ => id, fun _ => id⟩

theorem Precedes.trans {middle : Inner Sig} (first : older.Precedes middle)
    (second : middle.Precedes newer) : older.Precedes newer := by
  rcases first with earlier | ⟨sameView, prepare, commit, timeout⟩
  · rcases second with later | ⟨stays, _⟩
    · exact .inl (View.less_trans earlier later)
    · rw [stays] at earlier
      exact .inl earlier
  · rcases second with later | ⟨stays, prepare', commit', timeout'⟩
    · rw [← sameView] at later
      exact .inl later
    · exact .inr ⟨sameView.trans stays, fun vote held => prepare' vote (prepare vote held),
        fun vote held => commit' vote (commit vote held),
        fun vote held => timeout' vote (timeout vote held)⟩

/-- What a step under the lock does to the inner state. -/
structure Continues (epoch : Epoch) (inner next : Inner Sig) : Prop where
  isSealed : next.Sealed epoch
  precedes : inner.Precedes next
  road : inner.view.index ≤ next.view.index

theorem Sealed.continues_self (isSealed : inner.Sealed epoch) : Continues epoch inner inner :=
  ⟨isSealed, .refl inner, le_rfl⟩

theorem Sealed.continues_enters (isSealed : inner.Sealed epoch)
    (enters : Enters epoch inner next) : Continues epoch inner next := by
  refine ⟨⟨enters.rooted, ?_, ?_, ?_, ?_⟩, .inl enters.later, enters.index_le isSealed.rooted⟩
  · intro vote held
    cases enters.noPrepareVote.symm.trans held
  · intro vote held
    cases enters.noCommitVote.symm.trans held
  · intro vote held
    cases enters.noTimeoutVote.symm.trans held
  · rw [enters.noCommitVote]
    exact nofun

variable {key : PublicKey}

theorem Sealed.lockProposal {full : FullProposal Sig} (isSealed : inner.Sealed epoch) :
    Continues epoch inner (inner.lockProposal crypto key full).1 := by
  unfold Inner.lockProposal
  split
  · exact isSealed.continues_self
  · rename_i votes
    simp only [not_or, not_not, Bool.not_eq_true, isSome_eq_false_iff, isNone_iff_eq_none] at votes
    obtain ⟨sameView, _, unvoted⟩ := votes
    refine ⟨⟨isSealed.rooted.of_spec_eq rfl, ?_, isSealed.commitVote, isSealed.timeoutVote,
      isSealed.justified⟩, .inr ⟨rfl, ?_, fun _ => id, fun _ => id⟩, le_rfl⟩
    · rintro _ ⟨⟩
      exact sameView.symm
    · intro vote held
      cases unvoted.symm.trans held

theorem Sealed.lockPrepareQC {qc : PrepareQC Sig} (isSealed : inner.Sealed epoch) :
    Continues epoch inner (inner.lockPrepareQC crypto key qc).1 := by
  unfold Inner.lockPrepareQC
  split
  · exact isSealed.continues_self
  · rename_i votes
    simp only [not_or, not_not, Bool.not_eq_true] at votes
    obtain ⟨sameView, _, unprepared⟩ := votes
    refine ⟨⟨isSealed.rooted.of_spec_eq rfl, isSealed.prepareVote, ?_, isSealed.timeoutVote,
      fun _ => rfl⟩, .inr ⟨rfl, fun _ => id, ?_, fun _ => id⟩, le_rfl⟩
    · rintro _ ⟨⟩
      exact sameView.symm
    · -- A commit vote would have come with a prepare certificate.
      intro vote held
      have prepared := isSealed.justified (isSome_of_mem held)
      rw [unprepared] at prepared
      cases prepared

theorem Sealed.lockVoteTimeout {view : View} (isSealed : inner.Sealed epoch) :
    Continues epoch inner (inner.lockVoteTimeout crypto key view).1 := by
  unfold Inner.lockVoteTimeout
  split
  · exact isSealed.continues_self
  · rename_i votes
    simp only [not_or, not_not, Bool.not_eq_true, isSome_eq_false_iff, isNone_iff_eq_none] at votes
    obtain ⟨sameView, unvoted⟩ := votes
    refine ⟨⟨isSealed.rooted.of_spec_eq rfl, isSealed.prepareVote, isSealed.commitVote, ?_,
      isSealed.justified⟩, .inr ⟨rfl, fun _ => id, fun _ => id, ?_⟩, le_rfl⟩
    · rintro _ ⟨⟩
      exact sameView.symm
    · intro vote held
      cases unvoted.symm.trans held

end Inner

/-! ### Published votes -/

/-- What is published of one kind of vote is covered by the durable state: an earlier vote is
of an earlier view, and the only vote of the durable view is the one that the state holds. -/
structure VoteSlot.Outbox {Vote : Type} (slot : VoteSlot Sig Vote) (durable : Inner Sig)
    (current : Option Vote) (sent : List Vote) : Prop where
  covered : ∀ vote ∈ sent, (slot.view vote).less durable.view = true ∨
    slot.get durable.toPersistedInner = some vote
  unique : ∀ first ∈ sent, ∀ second ∈ sent, slot.view first = slot.view second → first = second
  noted : ∀ vote, current = some vote → vote ∈ sent

namespace VoteSlot.Outbox

variable {Vote : Type} {slot : VoteSlot Sig Vote} {durable newer : Inner Sig}
  {current : Option Vote} {sent : List Vote}

section

variable (outbox : slot.Outbox durable current sent)

include outbox

/-- To note again what is published adds nothing. -/
theorem again : slot.Outbox durable current (current.toList ++ sent) := by
  have same : ∀ vote, vote ∈ current.toList ++ sent → vote ∈ sent := by
    intro vote member
    rcases mem_append.mp member with published | old
    · exact outbox.noted vote (mem_toList.mp published)
    · exact old
  refine ⟨fun vote member => outbox.covered vote (same vote member), ?_, ?_⟩
  · intro first firstSent second secondSent
    exact outbox.unique first (same first firstSent) second (same second secondSent)
  · intro vote published
    exact mem_append_right _ (outbox.noted vote published)

/-- After a restart nothing is published, and what was sent stays sent. -/
theorem restart : slot.Outbox durable none sent := { outbox with noted := nofun }

section

variable (here : slot.HoldsHere durable)

include here

theorem advance (follows : durable.view.less newer.view = true ∨
      durable.view = newer.view ∧ slot.Keeps durable newer) :
    slot.Outbox newer current sent := by
  refine { outbox with covered := fun vote member => ?_ }
  rcases outbox.covered vote member with earlier | held
  · rcases follows with later | ⟨sameView, _⟩
    · exact .inl (View.less_trans earlier later)
    · rw [← sameView]
      exact .inl earlier
  · rcases follows with later | ⟨_, keeps⟩
    · rw [here vote held]
      exact .inl later
    · exact .inr (keeps vote held)

/-- A vote of the durable state may be published. -/
theorem publish {vote : Vote} (held : slot.get durable.toPersistedInner = some vote) :
    slot.Outbox durable (some vote) (vote :: sent) := by
  have only : ∀ other ∈ sent, slot.view other = slot.view vote → other = vote := by
    intro other member sameView
    rcases outbox.covered other member with earlier | otherHeld
    · rw [sameView, here vote held, View.not_less_self] at earlier
      cases earlier
    · exact Option.some.inj (otherHeld.symm.trans held)
  refine ⟨?_, ?_, ?_⟩
  · intro other member
    rcases mem_cons.mp member with rfl | old
    · exact .inr held
    · exact outbox.covered other old
  · intro first firstSent second secondSent sameView
    rcases mem_cons.mp firstSent with rfl | firstOld
    · rcases mem_cons.mp secondSent with rfl | secondOld
      · rfl
      · exact (only second secondOld sameView.symm).symm
    · rcases mem_cons.mp secondSent with rfl | secondOld
      · exact only first firstOld sameView
      · exact outbox.unique first firstOld second secondOld sameView
  · rintro _ ⟨⟩
    exact .head _

/-- What the durable state holds goes through `updateOutput`. -/
theorem published :
    slot.Outbox durable
      (Replica.publish slot.view current (slot.get durable.toPersistedInner))
      ((Replica.publish slot.view current (slot.get durable.toPersistedInner)).toList ++ sent) := by
  cases held : slot.get durable.toPersistedInner with
  | none => exact outbox.again
  | some =>
    rw [Replica.publish, Replica.updateOutput]
    split
    · exact outbox.again
    · exact outbox.publish here held

end

end

end VoteSlot.Outbox

/-! ### Every step of the node -/

variable (epoch : Epoch) (node : Node Digest Sig)

/-- What a restart comes back to. -/
def Node.durable (epoch : Epoch) : Inner Sig := Inner.mk (node.replica.persisted.getD {}) epoch

/-- What the checks of a call established for a replica that was at most at road `index`. -/
def Call.Ready (index : RoadIndex) : Call Sig → Prop
  | .pushCommitQC qc => qc.index + 1 < 2 ^ 64
  | .pushTimeoutQC qc => qc.view.epochIndex = epoch.epochIndex ∧ qc.view.number + 1 < 2 ^ 64 ∧
      qc.view.index ≤ index
  | _ => True

/-- Where the snapshot of the output loop stands between the durable and the inner state. -/
def OutputsPhase.Between (durable inner : Inner Sig) : OutputsPhase Sig → Prop
  | .persist snapshot =>
    snapshot.Sealed epoch ∧ durable.Precedes snapshot ∧ snapshot.Precedes inner
  | .prepareVote snapshot | .commitVote snapshot | .timeoutVote snapshot => durable = snapshot
  | .idle | .timeoutQC _ => True

structure NodeInvariant : Prop where
  inner : node.replica.inner.Sealed epoch
  calls : ∀ call ∈ node.replica.calls, call.Ready epoch node.replica.inner.view.index
  durable : (node.durable epoch).Sealed epoch
  behind : (node.durable epoch).Precedes node.replica.inner
  outputs : node.replica.outputs.Between epoch (node.durable epoch) node.replica.inner
  prepare : prepareSlot.Outbox (node.durable epoch) node.replica.myPrepareVote node.sentPrepareVotes
  commit : commitSlot.Outbox (node.durable epoch) node.replica.myCommitVote node.sentCommitVotes
  timeout : timeoutSlot.Outbox (node.durable epoch) node.replica.myTimeoutVote node.sentTimeoutVotes

variable {replica : Replica Digest Sig}

section Step

variable {epoch : Epoch} {node after : Node Digest Sig} {key : PublicKey}

theorem nodeInvariant_start : NodeInvariant epoch (Node.start Digest Sig epoch) where
  inner := ⟨⟨rfl, nofun, nofun⟩, nofun, nofun, nofun, nofun⟩
  calls := nofun
  durable := ⟨⟨rfl, nofun, nofun⟩, nofun, nofun, nofun, nofun⟩
  behind := .refl _
  outputs := trivial
  prepare := ⟨nofun, nofun, nofun⟩
  commit := ⟨nofun, nofun, nofun⟩
  timeout := ⟨nofun, nofun, nofun⟩

variable {call : Call Sig}

theorem Call.Ready.mono {index higher : RoadIndex}
    (ready : call.Ready epoch index) (above : index ≤ higher) : call.Ready epoch higher := by
  cases call with
  | pushTimeoutQC qc => exact ⟨ready.1, ready.2.1, le_trans ready.2.2 above⟩
  | pushCommitQC qc => exact ready
  | pushProposal => trivial
  | pushPrepareQC qc => trivial
  | voteTimeout => trivial

theorem Inner.Sealed.lockCall [DecidableEq Digest] (isSealed : replica.inner.Sealed epoch)
    (ready : call.Ready epoch replica.inner.view.index) :
    Inner.Continues epoch replica.inner (replica.lockCall crypto key call).1 := by
  cases call with
  | pushCommitQC qc =>
    rcases isSealed.rooted.lockCommitQC ready with same | enters
    · rw [lockCall, same]
      exact isSealed.continues_self
    · exact isSealed.continues_enters enters
  | pushTimeoutQC qc =>
    rcases isSealed.rooted.lockTimeoutQC ready.1 ready.2.1 ready.2.2 with same | enters
    · rw [lockCall, same]
      exact isSealed.continues_self
    · exact isSealed.continues_enters enters
  | pushProposal => exact isSealed.lockProposal
  | pushPrepareQC qc => exact isSealed.lockPrepareQC
  | voteTimeout => exact isSealed.lockVoteTimeout

theorem OutputsPhase.Between.mono {durable next : Inner Sig} {phase : OutputsPhase Sig}
    (between : phase.Between epoch durable inner) (precedes : inner.Precedes next) :
    phase.Between epoch durable next := by
  cases phase with
  | persist snapshot => exact ⟨between.1, between.2.1, between.2.2.trans precedes⟩
  | prepareVote snapshot | commitVote snapshot | timeoutVote snapshot => exact between
  | idle => trivial
  | timeoutQC snapshot => trivial

section

variable (ok : NodeInvariant epoch node)

include ok

/-- A step that neither persists nor publishes. -/
theorem NodeInvariant.quiet (continues : Inner.Continues epoch node.replica.inner replica.inner)
    (calls : ∀ call ∈ replica.calls, call.Ready epoch replica.inner.view.index)
    (persisted : replica.persisted = node.replica.persisted)
    (outputs : replica.outputs.Between epoch (node.durable epoch) replica.inner)
    (myPrepareVote : replica.myPrepareVote = node.replica.myPrepareVote)
    (myCommitVote : replica.myCommitVote = node.replica.myCommitVote)
    (myTimeoutVote : replica.myTimeoutVote = node.replica.myTimeoutVote) :
    NodeInvariant epoch (node.observe replica) := by
  have sameDurable : (node.observe replica).durable epoch = node.durable epoch := by
    unfold Node.durable
    rw [← persisted]
    rfl
  constructor
  · exact continues.isSealed
  · exact calls
  · rw [sameDurable]
    exact ok.durable
  · rw [sameDurable]
    exact ok.behind.trans continues.precedes
  · rw [sameDurable]
    exact outputs
  · rw [sameDurable, Node.observe, myPrepareVote]
    exact ok.prepare.again
  · rw [sameDurable, Node.observe, myCommitVote]
    exact ok.commit.again
  · rw [sameDurable, Node.observe, myTimeoutVote]
    exact ok.timeout.again

/-- The checks of a call establish what it relies on under the lock. -/
theorem NodeInvariant.ready [DecidableEq Digest] (noWrap : (NodeEvent.step (.check call)).noWrap)
    (verified : node.replica.checkCall crypto call = .verified) :
    call.Ready epoch node.replica.inner.view.index := by
  cases call with
  | pushCommitQC qc => exact noWrap
  | pushTimeoutQC qc =>
    rw [checkCall, ok.inner.rooted.sameEpoch] at verified
    split at verified
    · cases verified
    rename_i reached
    split at verified
    · cases verified
    rw [CallOutcome.ofCheck_eq_verified, TimeoutQC.verify, check_bind_eq_ok] at verified
    exact ⟨View.epochIndex_of_verify verified.1, noWrap, not_lt.mp reached⟩
  | pushProposal => trivial
  | pushPrepareQC qc => trivial
  | voteTimeout => trivial

/-- The output loop takes a snapshot, makes it durable, and then publishes its votes. -/
theorem NodeInvariant.outputsStep :
    NodeInvariant epoch (node.observe node.replica.outputsStep) := by
  have between := ok.outputs
  unfold Replica.outputsStep
  split
  · exact ok.quiet ok.inner.continues_self ok.calls rfl ⟨ok.inner, ok.behind, .refl _⟩ rfl rfl rfl
  · rename_i snapshot isPhase
    rw [isPhase] at between
    obtain ⟨isSealed, follows, precedes⟩ := between
    have durable : (node.observe { node.replica with
        persisted := some snapshot.toPersistedInner,
        outputs := .prepareVote snapshot }).durable epoch = snapshot := by
      rw [← isSealed.rooted.sameEpoch]
      rfl
    constructor
    · exact ok.inner
    · exact ok.calls
    · rw [durable]
      exact isSealed
    · rw [durable]
      exact precedes
    · exact durable
    · rw [durable]
      exact (ok.prepare.advance ok.durable.prepareVote
        (follows.imp_right fun same => ⟨same.1, same.2.1⟩)).again
    · rw [durable]
      exact (ok.commit.advance ok.durable.commitVote
        (follows.imp_right fun same => ⟨same.1, same.2.2.1⟩)).again
    · rw [durable]
      exact (ok.timeout.advance ok.durable.timeoutVote
        (follows.imp_right fun same => ⟨same.1, same.2.2.2⟩)).again
  · rename_i isPhase
    rw [isPhase] at between
    cases between
    exact ⟨ok.inner, ok.calls, ok.durable, ok.behind, rfl,
      ok.prepare.published ok.durable.prepareVote, ok.commit.again,
      ok.timeout.again⟩
  · rename_i isPhase
    rw [isPhase] at between
    cases between
    exact ⟨ok.inner, ok.calls, ok.durable, ok.behind, rfl,
      ok.prepare.again, ok.commit.published ok.durable.commitVote,
      ok.timeout.again⟩
  · rename_i isPhase
    rw [isPhase] at between
    cases between
    exact ⟨ok.inner, ok.calls, ok.durable, ok.behind, trivial,
      ok.prepare.again, ok.commit.again,
      ok.timeout.published ok.durable.timeoutVote⟩
  · exact ok.quiet ok.inner.continues_self ok.calls rfl trivial rfl rfl rfl

/-- A restart falls back to the durable state, which covers all that was published. -/
theorem NodeInvariant.restart
    (restored : newInner crypto epoch node.replica.persisted = .ok inner) :
    NodeInvariant epoch (node.observe (newReplica inner node.replica.persisted)) := by
  cases eq_of_newInner restored
  exact {
    inner := ok.durable
    calls := nofun
    durable := ok.durable
    behind := .refl _
    outputs := trivial
    prepare := ok.prepare.restart
    commit := ok.commit.restart
    timeout := ok.timeout.restart }

theorem NodeInvariant.step [DecidableEq Digest] {event : NodeEvent Sig} (noWrap : event.noWrap)
    (taken : nodeStep crypto epoch key node event = some after) : NodeInvariant epoch after := by
  cases event with
  | restart =>
    rw [nodeStep] at taken
    split at taken
    · cases taken
    rename_i restored
    cases taken
    exact ok.restart restored
  | step event =>
    obtain ⟨⟨replica, signed⟩, stepped, rfl⟩ := map_eq_some_iff.mp taken
    cases event with
    | check call =>
      obtain ⟨verified, ⟨⟩⟩ := ite_none_right_eq_some.mp stepped
      refine ok.quiet ok.inner.continues_self ?_ rfl ok.outputs rfl rfl rfl
      intro other member
      rcases mem_cons.mp member with rfl | old
      · exact ok.ready noWrap verified
      · exact ok.calls other old
    | lock =>
      rw [replicaStep] at stepped
      split at stepped
      · cases stepped
      rename_i call isCall
      cases stepped
      have continues : Inner.Continues epoch node.replica.inner
          (node.replica.lockCall crypto key call).1 :=
        ok.inner.lockCall (ok.calls call (mem_of_getElem? isCall))
      refine ok.quiet continues ?_ rfl (ok.outputs.mono continues.precedes) rfl rfl rfl
      intro other member
      exact (ok.calls other (mem_of_mem_eraseIdx member)).mono continues.road
    | pushPrepareVote vote | pushCommitVote vote | pushTimeoutVote vote =>
      rw [replicaStep] at stepped
      split at stepped <;> cases stepped
      exact ok.quiet ok.inner.continues_self ok.calls rfl ok.outputs rfl rfl rfl
    | outputs =>
      cases stepped
      exact ok.outputsStep

/-- A view that a published timeout vote gave up is either over or recorded as given up. -/
theorem NodeInvariant.timeout_recorded
    {vote : FullTimeoutVote Sig} (sent : vote ∈ node.sentTimeoutVotes)
    (here : vote.view = node.replica.inner.view) :
    node.replica.inner.timeoutVote = some vote := by
  have current : vote.view.less node.replica.inner.view = false := by
    rw [here]
    exact View.not_less_self _
  rcases ok.timeout.covered vote sent with earlier | held
  · rcases ok.behind with later | ⟨sameView, _⟩
    · exact absurd (View.less_trans earlier later) (by simp [timeoutSlot, current])
    · rw [sameView] at earlier
      exact absurd earlier (by simp [timeoutSlot, current])
  · rcases ok.behind with later | ⟨_, _, _, keeps⟩
    · rw [← ok.durable.timeoutVote vote held] at later
      exact absurd later (by simp [timeoutSlot, current])
    · exact keeps vote held

end

end Step

/-! ### No double vote -/

section NoDoubleVote

variable [DecidableEq Digest] {epoch : Epoch} {key : PublicKey}

theorem VoteSlot.Outbox.eq_of_view_eq {Vote : Type} {slot : VoteSlot Sig Vote}
    {durable : Inner Sig} {current : Option Vote} {sent : List Vote}
    (outbox : slot.Outbox durable current sent) {Content : Type} (content : Vote → Content) :
    ∀ first ∈ sent, ∀ second ∈ sent, slot.view first = slot.view second →
      content first = content second := by
  intro first firstSent second secondSent sameView
  rw [outbox.unique first firstSent second secondSent sameView]

/-- A commit vote is signed for the current view, and only while it is not given up. -/
theorem signs_commitVote {after : Replica Digest Sig} {event : ReplicaEvent Sig}
    {signed : List Msg} {vote : CommitVote}
    (taken : replicaStep crypto key replica event = some (after, signed))
    (signs : .commitVote vote ∈ signed) :
    vote.proposal.view = replica.inner.view ∧ replica.inner.timeoutVote = none := by
  have quiet : signed ≠ [] := ne_nil_of_mem signs
  cases event with
  | lock =>
    rw [replicaStep] at taken
    split at taken
    · cases taken
    rename_i call isCall
    cases taken
    cases call with
    | pushCommitQC qc | pushTimeoutQC qc => exact absurd rfl quiet
    | pushProposal =>
      simp only [Inner.lockProposal] at signs
      split at signs <;> simp at signs
    | voteTimeout =>
      simp only [Inner.lockVoteTimeout] at signs
      split at signs <;> simp at signs
    | pushPrepareQC qc =>
      simp only [Inner.lockPrepareQC] at signs
      split at signs
      · cases signs
      rename_i votes
      simp only [not_or, not_not, Bool.not_eq_true, isSome_eq_false_iff,
        isNone_iff_eq_none] at votes
      simp only [mem_singleton, Msg.commitVote.injEq] at signs
      subst signs
      exact ⟨votes.1.symm, votes.2.1⟩
  | check call =>
    obtain ⟨_, ⟨⟩⟩ := ite_none_right_eq_some.mp taken
    exact absurd rfl quiet
  | pushPrepareVote vote | pushCommitVote vote | pushTimeoutVote vote =>
    rw [replicaStep] at taken
    split at taken <;> cases taken
    exact absurd rfl quiet
  | outputs =>
    cases taken
    exact absurd rfl quiet

/-- However the steps of a replica are ordered and wherever it crashes, it publishes one prepare,
one commit and one timeout vote for a view at most, and signs no commit vote for a view that
it has published a timeout vote for. -/
theorem votes_once_across_restarts (crypto : Crypto Digest Sig) (epoch : Epoch) (key : PublicKey)
    (node : Node Digest Sig)
    (reached : Reaches (nodeStep crypto epoch key) (fun _ event => event.noWrap)
      (Node.start Digest Sig epoch) node) :
    node.NoDoubleVote ∧ node.NoLateCommit crypto key := by
  have invariant : NodeInvariant epoch node :=
    reached.invariant nodeInvariant_start fun _ _ _ holds => holds.step
  constructor
  · exact {
      prepare := invariant.prepare.eq_of_view_eq fun vote => vote.msg.proposal
      commit := invariant.commit.eq_of_view_eq fun vote => vote.msg.proposal
      timeout := invariant.timeout.eq_of_view_eq fun vote => vote.vote.msg }
  · intro event after signed taken vote signs timeout sent sameView
    obtain ⟨current, stillOpen⟩ := signs_commitVote taken signs
    have recorded := invariant.timeout_recorded sent (sameView.trans current)
    rw [stillOpen] at recorded
    cases recorded

end NoDoubleVote

/-! ### A quorum that wraps the view number around -/

/-- The scheme that accepts every signature and draws replica `2` as the leader. -/
def unevenCrypto : Crypto Msg Bool := { openCrypto with sha256 := fun _ => 1 }

/-- A proposal of the leader for the first view; two of them differ in the timestamp. -/
def unevenProposal (timestamp : Timestamp) : FullProposal Bool where
  proposal := sign unevenCrypto 2 .proposal (newProposal
    { index := 0, number := 0, epochIndex := 0 } timestamp
    [{ lane := 1, first := 0, next := 1, lastHash := 1 }] none 0)
  laneQCs := [(1, {
    header := { lane := 1, blockNumber := 0, parentHash := 0, payloadHash := 0 }
    sigs := [{ key := 2, sig := true }] })]
  appQC := none
  timeoutQC := none

variable (number : ViewNumber)

/-- A timeout certificate for a view of the first road. -/
def unevenTimeoutQC : TimeoutQC Bool where
  first := sign unevenCrypto 2 .timeoutVote
    { view := { index := 0, number := number, epochIndex := 0 }, latestPrepareQC := none }
  rest := []
  latestPrepareQC := none

/-- Replica `1` votes for a proposal, crashes, comes back, takes up a timeout certificate and
gets another proposal for the view it knows. -/
def twoProposals : List (NodeEvent Bool) :=
  [.step (.check (.pushProposal (unevenProposal 0))), .step (.lock 0),
    .step .outputs, .step .outputs, .step .outputs, .restart,
    .step (.check (.pushTimeoutQC (unevenTimeoutQC number))), .step (.lock 0),
    .step (.check (.pushProposal (unevenProposal 1))), .step (.lock 0),
    .step .outputs, .step .outputs, .step .outputs]

/-- The view and the timestamp of each prepare vote that a node has published. -/
def Node.preparedFor : List (View × Timestamp) :=
  node.sentPrepareVotes.map fun vote => (vote.msg.proposal.view, vote.msg.proposal.timestamp)

/-- A replica that takes up a timeout certificate does not vote in the view again. -/
theorem votes_once_across_restarts_uneven : ∃ node : Node Msg Bool,
    Reaches (nodeStep unevenCrypto (genesisEpoch unevenCommittee 0 0) 1)
      (fun _ event => event.noWrap)
      (Node.start Msg Bool (genesisEpoch unevenCommittee 0 0)) node ∧
    node.preparedFor = [({ index := 0, number := 0, epochIndex := 0 }, 0)] ∧
    node.NoDoubleVote ∧ node.NoLateCommit unevenCrypto 1 := by
  obtain ⟨node, reached, published⟩ : ∃ node,
      Reaches (nodeStep unevenCrypto (genesisEpoch unevenCommittee 0 0) 1)
        (fun _ event => event.noWrap) (Node.start Msg Bool (genesisEpoch unevenCommittee 0 0)) node ∧
      node.preparedFor = [({ index := 0, number := 0, epochIndex := 0 }, 0)] :=
    exists_reaches (twoProposals 7) (by decide +kernel)
  exact ⟨node, reached, published, votes_once_across_restarts _ _ _ node reached⟩

/-- After view `2 ^ 64 - 1` comes view `0` again, and the replica votes there once more. -/
theorem votes_twice_after_wrap : ∃ node : Node Msg Bool,
    Reaches (nodeStep unevenCrypto (genesisEpoch unevenCommittee 0 0) 1) (fun _ _ => True)
      (Node.start Msg Bool (genesisEpoch unevenCommittee 0 0)) node ∧ ¬ node.NoDoubleVote := by
  obtain ⟨node, reached, first, firstSent, second, secondSent, sameView, different⟩ : ∃ node,
      Reaches (nodeStep unevenCrypto (genesisEpoch unevenCommittee 0 0) 1) (fun _ _ => True)
        (Node.start Msg Bool (genesisEpoch unevenCommittee 0 0)) node ∧
      ∃ first ∈ node.sentPrepareVotes, ∃ second ∈ node.sentPrepareVotes,
        first.msg.proposal.view = second.msg.proposal.view ∧
        first.msg.proposal.timestamp ≠ second.msg.proposal.timestamp :=
    exists_reaches (twoProposals (2 ^ 64 - 1)) (by decide +kernel)
  refine ⟨node, reached, fun once => different ?_⟩
  rw [once.prepare first firstSent second secondSent sameView]

end SeiChain.Autobahn
