/-
This file models the consensus state of one replica as a machine of atomic
steps. The source checks a message against a snapshot of its state, outside of
the lock, and then takes the lock, looks at the state again and updates it; the
model splits every push into these two steps, so that any number of other steps
may come in between. The three aggregators of votes are one definition with
three instances. The output loop is a small program of its own: it takes a
snapshot of the inner state, persists it, and only then publishes its votes.
-/

import SeiChain.Autobahn.Messages

namespace SeiChain.Autobahn

variable {Digest Sig : Type}

/-! ### The inner state -/

/-- The part of the inner state that is persisted. -/
structure PersistedInner (Sig : Type) where
  commitQC : Option (CommitQC Sig) := none
  prepareQC : Option (PrepareQC Sig) := none
  timeoutQC : Option (TimeoutQC Sig) := none
  commitVote : Option (Signed CommitVote Sig) := none
  prepareVote : Option (Signed PrepareVote Sig) := none
  timeoutVote : Option (FullTimeoutVote Sig) := none
  deriving DecidableEq

structure Inner (Sig : Type) extends PersistedInner Sig where
  epoch : Epoch

variable (inner : Inner Sig) (crypto : Crypto Digest Sig)

namespace Inner

def spec : ViewSpec Sig where
  commitQC := inner.commitQC
  timeoutQC := inner.timeoutQC
  epoch := inner.epoch

def view (inner : Inner Sig) : View := inner.spec.view

/-- The view of a replica whose timeout certificate is of the road after its commit
certificate. -/
theorem view_of_timeoutQC {inner : Inner Sig} {qc : TimeoutQC Sig}
    (timedOut : inner.timeoutQC = some qc) (road : qc.view.index = nextIndexOpt inner.commitQC)
    (noWrap : qc.view.number + 1 < 2 ^ 64) :
    inner.view = { index := qc.view.index, number := qc.view.number + 1,
                   epochIndex := inner.epoch.epochIndex } := by
  simp only [view, spec, ViewSpec.view, timedOut, Option.map_some, nextViewOpt,
    View.next, road, if_true, add64, Nat.mod_eq_of_lt noWrap]

theorem view_of_none {inner : Inner Sig} (absent : inner.timeoutQC = none) :
    inner.view = { index := nextIndexOpt inner.commitQC, number := 0,
                   epochIndex := inner.epoch.epochIndex } := by
  simp only [view, spec, ViewSpec.view, absent, Option.map_none, nextViewOpt]
  split
  · rename_i same
    rw [same]
  · rfl

/-! #### What happens under the lock

Each function gives the new inner state and the messages that are signed. -/

/-- A commit certificate leads to the next road and clears the rest. -/
def lockCommitQC (qc : CommitQC Sig) : Inner Sig :=
  if qc.index < inner.view.index then inner
  else { commitQC := some qc, epoch := inner.epoch }

/-- A timeout certificate leads to the next view and clears votes and prepare certificate. -/
def lockTimeoutQC (qc : TimeoutQC Sig) : Inner Sig :=
  if qc.view.less inner.view then inner
  else { commitQC := inner.commitQC, timeoutQC := some qc, epoch := inner.epoch }

variable (key : PublicKey)

def lockProposal (full : FullProposal Sig) : Inner Sig × List Msg :=
  if inner.view ≠ full.view ∨ inner.timeoutVote.isSome ∨ inner.prepareVote.isSome then (inner, [])
  else
    let vote : PrepareVote := { proposal := full.proposal.msg }
    ({ inner with prepareVote := some (sign crypto key .prepareVote vote) }, [.prepareVote vote])

def lockPrepareQC (qc : PrepareQC Sig) : Inner Sig × List Msg :=
  if inner.view ≠ qc.view ∨ inner.timeoutVote.isSome ∨ inner.prepareQC.isSome then (inner, [])
  else
    let vote : CommitVote := { proposal := qc.proposal }
    ({ inner with
        prepareQC := some qc
        commitVote := some (sign crypto key .commitVote vote) }, [.commitVote vote])

/-- The prepare certificate that a timeout vote reports: the one of this view, or else the one
that the timeout certificate of the view before inherited. -/
def reportedPrepareQC : Option (PrepareQC Sig) :=
  match inner.prepareQC, inner.timeoutQC with
  | some qc, _ => some qc
  | none, some timeoutQC => timeoutQC.latestPrepareQC
  | none, none => none

def lockVoteTimeout (view : View) : Inner Sig × List Msg :=
  if inner.view ≠ view ∨ inner.timeoutVote.isSome then (inner, [])
  else
    let vote := newFullTimeoutVote crypto key view inner.reportedPrepareQC
    ({ inner with timeoutVote := some vote }, [.timeoutVote vote.vote.msg])

/-! #### Views only grow

As long as no index wraps around 64 bits, a certificate that a replica takes up leads it to a
later view. -/

/-- The certificates of a replica are those that its view follows from. -/
structure Rooted (epoch : Epoch) : Prop where
  sameEpoch : inner.epoch = epoch
  commitQC : ∀ qc, inner.commitQC = some qc → qc.index + 1 < 2 ^ 64
  timeoutQC : ∀ qc, inner.timeoutQC = some qc →
    qc.view.index = nextIndexOpt inner.commitQC ∧ qc.view.number + 1 < 2 ^ 64

/-- The replica goes on to a later view, where it has no prepare certificate and no vote. -/
structure Enters (epoch : Epoch) (inner next : Inner Sig) : Prop where
  rooted : next.Rooted epoch
  later : inner.view.less next.view = true
  noPrepareQC : next.prepareQC = none
  noPrepareVote : next.prepareVote = none
  noCommitVote : next.commitVote = none
  noTimeoutVote : next.timeoutVote = none

variable {inner : Inner Sig} {epoch : Epoch}

section

variable (rooted : inner.Rooted epoch)

include rooted

theorem Rooted.of_spec_eq {next : Inner Sig}
    (sameSpec : next.spec = inner.spec) : next.Rooted epoch := by
  have sameEpoch : next.epoch = inner.epoch := congrArg ViewSpec.epoch sameSpec
  have sameCommitQC : next.commitQC = inner.commitQC := congrArg ViewSpec.commitQC sameSpec
  have sameTimeoutQC : next.timeoutQC = inner.timeoutQC := congrArg ViewSpec.timeoutQC sameSpec
  refine ⟨sameEpoch.trans rooted.sameEpoch, ?_, ?_⟩
  · rw [sameCommitQC]
    exact rooted.commitQC
  · rw [sameCommitQC, sameTimeoutQC]
    exact rooted.timeoutQC

theorem Rooted.view_index : inner.view.index = nextIndexOpt inner.commitQC := by
  cases timedOut : inner.timeoutQC with
  | none => rw [view_of_none timedOut]
  | some qc =>
    obtain ⟨road, number⟩ := rooted.timeoutQC qc timedOut
    rw [view_of_timeoutQC timedOut road number]
    exact road

theorem Rooted.view_epochIndex : inner.view.epochIndex = epoch.epochIndex := by
  rw [← rooted.sameEpoch]
  cases timedOut : inner.timeoutQC with
  | none => rw [view_of_none timedOut]
  | some qc =>
    obtain ⟨road, number⟩ := rooted.timeoutQC qc timedOut
    rw [view_of_timeoutQC timedOut road number]

theorem Enters.index_le {next : Inner Sig} (enters : Enters epoch inner next) :
    inner.view.index ≤ next.view.index := by
  have sameEpoch := rooted.view_epochIndex.trans enters.rooted.view_epochIndex.symm
  have later := View.less_iff.mp enters.later
  lia

theorem Rooted.lockCommitQC {qc : CommitQC Sig} (noWrap : qc.index + 1 < 2 ^ 64) :
    inner.lockCommitQC qc = inner ∨ Enters epoch inner (inner.lockCommitQC qc) := by
  unfold Inner.lockCommitQC
  split
  · exact .inl rfl
  · have next : Inner.Rooted { commitQC := some qc, epoch := inner.epoch } epoch := by
      refine ⟨rooted.sameEpoch, ?_, nofun⟩
      rintro _ ⟨⟩
      exact noWrap
    refine .inr ⟨next, ?_, rfl, rfl, rfl, rfl⟩
    have index := next.view_index
    rw [nextIndexOpt, add64] at index
    rw [View.less_iff, rooted.view_epochIndex, next.view_epochIndex]
    exact .inr ⟨rfl, .inl (by lia)⟩

theorem Rooted.lockTimeoutQC {qc : TimeoutQC Sig}
    (sameEpoch : qc.view.epochIndex = epoch.epochIndex) (noWrap : qc.view.number + 1 < 2 ^ 64)
    (reached : qc.view.index ≤ inner.view.index) :
    inner.lockTimeoutQC qc = inner ∨ Enters epoch inner (inner.lockTimeoutQC qc) := by
  unfold Inner.lockTimeoutQC
  split
  · exact .inl rfl
  · rename_i notOld
    -- The certificate is not older than the view, so it is of the replica's own road.
    rw [View.less_iff, rooted.view_epochIndex] at notOld
    have road : qc.view.index = inner.view.index := by lia
    have continues : qc.view.index = nextIndexOpt inner.commitQC := road.trans rooted.view_index
    have next : Inner.Rooted
        { commitQC := inner.commitQC, timeoutQC := some qc, epoch := inner.epoch } epoch := by
      refine ⟨rooted.sameEpoch, rooted.commitQC, ?_⟩
      rintro _ ⟨⟩
      exact ⟨continues, noWrap⟩
    refine .inr ⟨next, ?_, rfl, rfl, rfl, rfl⟩
    have view := @view_of_timeoutQC _
      { commitQC := inner.commitQC, timeoutQC := some qc, epoch := inner.epoch } _ rfl continues noWrap
    rw [View.less_iff, rooted.view_epochIndex, next.view_epochIndex, view]
    exact .inr ⟨rfl, .inr ⟨road.symm, by lia⟩⟩

end

end Inner

/-! ### Aggregators of votes -/

structure VoteSet (Vote : Type) where
  weight : Nat
  votes : List (PublicKey × Vote)

/-- The votes of each key, the same votes by what they are for, and the last certificate. -/
structure VoteBook (Group Vote QC : Type) where
  byKey : PublicKey → Option Vote
  byGroup : Group → Option (VoteSet Vote)
  qc : Option QC

def VoteBook.empty (Group Vote QC : Type) : VoteBook Group Vote QC where
  byKey _ := none
  byGroup _ := none
  qc := none

/-- What the three aggregators differ in. -/
structure VoteKind (Group Vote QC : Type) where
  key : Vote → PublicKey
  view : Vote → View
  group : Vote → Group
  quorum : Committee → Nat
  qcView : QC → View
  newQC : List Vote → Option QC

namespace VoteBook

variable {Group Vote QC : Type} [DecidableEq Group]
  (book : VoteBook Group Vote QC) (committee : Committee)

/-- Take the vote of `key` out of the set of `group`, and an empty set out of the book. -/
def removeVote (key : PublicKey) (group : Group) : VoteBook Group Vote QC :=
  match book.byGroup group with
  | none => book
  | some set =>
    let votes := set.votes.filter fun entry => entry.1 ≠ key
    let rest : VoteSet Vote := { weight := sub64 set.weight (committee.weight key), votes := votes }
    { book with byGroup :=
        Function.update book.byGroup group (if votes.isEmpty then none else some rest) }

variable (kind : VoteKind Group Vote QC)

def insertVote (vote : Vote) : VoteBook Group Vote QC :=
  let key := kind.key vote
  let set := (book.byGroup (kind.group vote)).getD { weight := 0, votes := [] }
  let set' : VoteSet Vote := {
    weight := add64 set.weight (committee.weight key)
    votes := (key, vote) :: set.votes.filter fun entry => entry.1 ≠ key }
  { book with
    byKey := Function.update book.byKey key (some vote)
    byGroup := Function.update book.byGroup (kind.group vote) (some set') }

/-- Make a certificate of the votes with `vote`, if they are a quorum and newer than the last. -/
def updateQC (vote : Vote) : VoteBook Group Vote QC :=
  match book.byGroup (kind.group vote) with
  | none => book
  | some set =>
    if set.weight < kind.quorum committee then book
    else if (book.qc.map fun old => !(kind.qcView old).less (kind.view vote)).getD false then book
    else { book with qc := kind.newQC (set.votes.map Prod.snd) }

/-- `pushVote`: ignore a vote that is not newer than the last one of its key. -/
def pushVote (vote : Vote) : VoteBook Group Vote QC :=
  match book.byKey (kind.key vote) with
  | none => (book.insertVote committee kind vote).updateQC committee kind vote
  | some old =>
    if (kind.view old).less (kind.view vote) then
      ((book.removeVote committee (kind.key vote) (kind.group old)).insertVote committee kind
        vote).updateQC committee kind vote
    else book

end VoteBook

def prepareVoteKind : VoteKind Digest (Signed PrepareVote Sig) (PrepareQC Sig) where
  key vote := vote.sig.key
  view vote := vote.msg.proposal.view
  group vote := crypto.hash (.prepareVote vote.msg)
  quorum := Committee.prepareQuorum
  qcView := PrepareQC.view
  newQC := newPrepareQC

def commitVoteKind : VoteKind Digest (Signed CommitVote Sig) (CommitQC Sig) where
  key vote := vote.sig.key
  view vote := vote.msg.proposal.view
  group vote := crypto.hash (.commitVote vote.msg)
  quorum := Committee.commitQuorum
  qcView qc := qc.proposal.view
  newQC := newCommitQC

def timeoutVoteKind : VoteKind View (FullTimeoutVote Sig) (TimeoutQC Sig) where
  key vote := vote.vote.sig.key
  view := FullTimeoutVote.view
  group := FullTimeoutVote.view
  quorum := Committee.timeoutQuorum
  qcView := TimeoutQC.view
  newQC := newTimeoutQC

/-! ### The replica -/

/-- A push or a timeout that runs concurrently with the others. -/
inductive Call (Sig : Type) where
  | pushCommitQC (qc : CommitQC Sig)
  | pushTimeoutQC (qc : TimeoutQC Sig)
  | pushProposal (full : FullProposal Sig)
  | pushPrepareQC (qc : PrepareQC Sig)
  | voteTimeout (view : View)

/-- Where the output loop is in its work on a snapshot of the inner state. -/
inductive OutputsPhase (Sig : Type) where
  | idle
  | persist (snapshot : Inner Sig)
  | prepareVote (snapshot : Inner Sig)
  | commitVote (snapshot : Inner Sig)
  | timeoutVote (snapshot : Inner Sig)
  | timeoutQC (snapshot : Inner Sig)

structure Replica (Digest Sig : Type) where
  inner : Inner Sig
  myView : ViewSpec Sig
  /-- The calls that have passed their checks and have yet to take the lock. -/
  calls : List (Call Sig)
  prepareVotes : VoteBook Digest (Signed PrepareVote Sig) (PrepareQC Sig)
  commitVotes : VoteBook Digest (Signed CommitVote Sig) (CommitQC Sig)
  timeoutVotes : VoteBook View (FullTimeoutVote Sig) (TimeoutQC Sig)
  outputs : OutputsPhase Sig
  /-- What the persister holds. -/
  persisted : Option (PersistedInner Sig)
  myPrepareVote : Option (Signed PrepareVote Sig)
  myCommitVote : Option (Signed CommitVote Sig)
  myTimeoutVote : Option (FullTimeoutVote Sig)
  myTimeoutQC : Option (TimeoutQC Sig)

/-- `newState` around a given inner state. -/
def newReplica (persisted : Option (PersistedInner Sig)) : Replica Digest Sig where
  inner := inner
  myView := { commitQC := none, timeoutQC := none, epoch := inner.epoch }
  calls := []
  prepareVotes := .empty _ _ _
  commitVotes := .empty _ _ _
  timeoutVotes := .empty _ _ _
  outputs := .idle
  persisted := persisted
  myPrepareVote := none
  myCommitVote := none
  myTimeoutVote := none
  myTimeoutQC := none

/-- How the part of a call before the lock ends. -/
inductive CallOutcome where
  /-- The view of the call is not reached yet. -/
  | waits
  /-- The message is out of date and the call returns without an error. -/
  | ignored
  | failed (error : VerifyError)
  | verified
  deriving DecidableEq

def CallOutcome.ofCheck : Check → CallOutcome
  | .ok () => .verified
  | .error error => .failed error

@[simp]
theorem CallOutcome.ofCheck_eq_verified {check : Check} :
    CallOutcome.ofCheck check = .verified ↔ check = .ok () := by
  cases check <;> simp [CallOutcome.ofCheck]

namespace Replica

variable [DecidableEq Digest] (replica : Replica Digest Sig)

/-- The part of a call before it takes the lock. -/
def checkCall (crypto : Crypto Digest Sig) : Call Sig → CallOutcome
  | .pushCommitQC qc =>
    if qc.index < replica.inner.view.index then .ignored
    else .ofCheck (qc.verify crypto replica.inner.epoch)
  | .pushTimeoutQC qc =>
    if replica.inner.view.index < qc.view.index then .waits
    else if qc.view.less replica.inner.view then .ignored
    else .ofCheck (qc.verify crypto replica.inner.epoch replica.inner.commitQC)
  | .pushProposal full =>
    if replica.myView.view.less full.view then .waits
    else if replica.myView.view ≠ full.view then .ignored
    else .ofCheck (full.verify crypto replica.myView)
  | .pushPrepareQC qc =>
    if replica.myView.view.less qc.view then .waits
    else if replica.myView.view ≠ qc.view then .ignored
    else .ofCheck (qc.verify crypto replica.myView.epoch)
  | .voteTimeout view => if replica.myView.view.less view then .waits else .verified

/-- The part of a call under the lock, with the messages it signs. -/
def lockCall (crypto : Crypto Digest Sig) (key : PublicKey) : Call Sig → Inner Sig × List Msg
  | .pushCommitQC qc => (replica.inner.lockCommitQC qc, [])
  | .pushTimeoutQC qc => (replica.inner.lockTimeoutQC qc, [])
  | .pushProposal full => replica.inner.lockProposal crypto key full
  | .pushPrepareQC qc => replica.inner.lockPrepareQC crypto key qc
  | .voteTimeout view => replica.inner.lockVoteTimeout crypto key view

/-- `updateOutput`: publish a value unless one of its view or a later one is out. -/
def updateOutput {Value : Type} (view : Value → View) (old : Option Value) (value : Value) :
    Option Value :=
  if (view value).less (nextViewOpt (old.map view)) then old else some value

/-- The output loop passes what a snapshot holds to `updateOutput`. -/
def publish {Value : Type} (view : Value → View) (old : Option Value) :
    Option Value → Option Value
  | some value => updateOutput view old value
  | none => old

/-- One step of the output loop. The snapshot is persisted before any of its votes is
published. -/
def outputsStep : Replica Digest Sig :=
  match replica.outputs with
  | .idle =>
    let snapshot := replica.inner
    { replica with
      myView := if replica.myView.view.less snapshot.view then snapshot.spec else replica.myView
      outputs := .persist snapshot }
  | .persist snapshot =>
    { replica with persisted := some snapshot.toPersistedInner, outputs := .prepareVote snapshot }
  | .prepareVote snapshot =>
    { replica with
      myPrepareVote :=
        publish (fun vote => vote.msg.proposal.view) replica.myPrepareVote snapshot.prepareVote
      outputs := .commitVote snapshot }
  | .commitVote snapshot =>
    { replica with
      myCommitVote :=
        publish (fun vote => vote.msg.proposal.view) replica.myCommitVote snapshot.commitVote
      outputs := .timeoutVote snapshot }
  | .timeoutVote snapshot =>
    { replica with
      myTimeoutVote := publish FullTimeoutVote.view replica.myTimeoutVote snapshot.timeoutVote
      outputs := .timeoutQC snapshot }
  | .timeoutQC snapshot =>
    { replica with
      myTimeoutQC := publish TimeoutQC.view replica.myTimeoutQC snapshot.timeoutQC
      outputs := .idle }

end Replica

inductive ReplicaEvent (Sig : Type) where
  /-- A call starts and does its checks. -/
  | check (call : Call Sig)
  /-- The call at a position of `calls` takes the lock. -/
  | lock (position : Nat)
  | pushPrepareVote (vote : Signed PrepareVote Sig)
  | pushCommitVote (vote : Signed CommitVote Sig)
  | pushTimeoutVote (vote : FullTimeoutVote Sig)
  | outputs

/-- One step of a replica, with the messages it signs. A call that waits, is ignored or fails
its checks changes nothing, nor does a vote that fails its check. -/
def replicaStep [DecidableEq Digest] (crypto : Crypto Digest Sig) (key : PublicKey)
    (replica : Replica Digest Sig) : ReplicaEvent Sig → Option (Replica Digest Sig × List Msg)
  | .check call =>
    if replica.checkCall crypto call = .verified then
      some ({ replica with calls := call :: replica.calls }, [])
    else none
  | .lock position =>
    match replica.calls[position]? with
    | none => none
    | some call =>
      let (inner, signed) := replica.lockCall crypto key call
      some ({ replica with inner := inner, calls := replica.calls.eraseIdx position }, signed)
  | .pushPrepareVote vote =>
    let committee := replica.myView.epoch.committee
    match verifySig crypto committee (.prepareVote vote.msg) vote.sig with
    | .error _ => none
    | .ok () => some ({ replica with
        prepareVotes := replica.prepareVotes.pushVote committee (prepareVoteKind crypto) vote }, [])
  | .pushCommitVote vote =>
    let committee := replica.myView.epoch.committee
    match verifySig crypto committee (.commitVote vote.msg) vote.sig with
    | .error _ => none
    | .ok () => some ({ replica with
        commitVotes := replica.commitVotes.pushVote committee (commitVoteKind crypto) vote }, [])
  | .pushTimeoutVote vote =>
    let epoch := replica.myView.epoch
    match vote.verify crypto epoch with
    | .error _ => none
    | .ok () => some ({ replica with
        timeoutVotes := replica.timeoutVotes.pushVote epoch.committee timeoutVoteKind vote }, [])
  | .outputs => some (replica.outputsStep, [])

end SeiChain.Autobahn
