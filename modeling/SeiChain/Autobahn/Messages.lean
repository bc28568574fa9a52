/-
This file models the signed messages of consensus and how they are verified:
votes, certificates made of votes, timeout certificates with the prepare
certificate they inherit, and full proposals with their justification. Hashing
and signing are parameters. A message and its hash are always made together in
the source, so the model keeps the message and hashes it where the hash is used.
-/

import SeiChain.Autobahn.Proposal

namespace SeiChain.Autobahn

open Library

/-! ### Messages and signatures -/

structure PrepareVote where
  proposal : Proposal
  deriving DecidableEq

structure CommitVote where
  proposal : Proposal
  deriving DecidableEq

/-- Gives a view up; `latestPrepareQC` is the highest view number of this road for which the
voter observed a prepare certificate. -/
structure TimeoutVote where
  view : View
  latestPrepareQC : Option ViewNumber
  deriving DecidableEq, Repr

/-- The messages that a node signs in consensus, told apart by their kind when hashed. -/
inductive Msg where
  | laneVote (header : BlockHeader)
  | appVote (proposal : AppProposal)
  | proposal (proposal : Proposal)
  | prepareVote (vote : PrepareVote)
  | commitVote (vote : CommitVote)
  | timeoutVote (vote : TimeoutVote)
  deriving DecidableEq

/-- Hashing and signing. `hash` is taken to be free of collisions; `verifyWithTag` accepts the
signatures that the holder of a key makes. -/
structure Crypto (Digest Sig : Type) where
  hash : Msg → Digest
  hash_injective : Function.Injective hash
  headerHash : BlockHeader → BlockHeaderHash
  payloadHash : Payload → PayloadHash
  sha256 : Bytes → Nat
  signWithTag : PublicKey → Digest → Sig
  verifyWithTag : PublicKey → Digest → Sig → Bool
  verify_sign : ∀ key digest, verifyWithTag key digest (signWithTag key digest) = true

/-- A scheme that accepts every signature, to run the model on given messages. -/
def openCrypto : Crypto Msg Bool where
  hash := id
  hash_injective := Function.injective_id
  headerHash header := header.blockNumber + 1
  payloadHash _ := 0
  sha256 _ := 0
  signWithTag _ _ := true
  verifyWithTag _ _ _ := true
  verify_sign _ _ := rfl

structure Signature (Sig : Type) where
  key : PublicKey
  sig : Sig
  deriving DecidableEq

/-- A message with the signature of one key. -/
structure Signed (Message Sig : Type) where
  msg : Message
  sig : Signature Sig
  deriving DecidableEq

variable {Digest Sig : Type}

/-- `Sign`, by the holder of `key`; `asMsg` tags the message with its kind. -/
def sign {Message : Type} (crypto : Crypto Digest Sig) (key : PublicKey) (asMsg : Message → Msg)
    (msg : Message) : Signed Message Sig where
  msg := msg
  sig := { key := key, sig := crypto.signWithTag key (crypto.hash (asMsg msg)) }

variable (crypto : Crypto Digest Sig) (committee : Committee)

def verifySig (msg : Msg) (sig : Signature Sig) : Check := do
  ensure (committee.hasReplica sig.key) (.notAReplica sig.key)
  ensure (crypto.verifyWithTag sig.key (crypto.hash msg) sig.sig) (.badSignature sig.key)

abbrev SignedMsgs (Sig : Type) := List (Msg × Signature Sig)

/-- The loop over signed messages that adds up the weights of their signers. It reports a
signer that occurs twice with the error it is given. -/
def verifySigs (crypto : Crypto Digest Sig) (committee : Committee)
    (duplicate : PublicKey → VerifyError) :
    SignedMsgs Sig → List PublicKey → Nat → Except VerifyError Nat
  | [], _, weight => .ok weight
  | (msg, sig) :: rest, done, weight => do
    ensure (sig.key ∉ done) (duplicate sig.key)
    verifySig crypto committee msg sig
    verifySigs crypto committee duplicate rest (sig.key :: done)
      (add64 weight (committee.weight sig.key))

/-- `verifyQC`: the signatures on one message form a quorum. -/
def verifyQC (quorumWeight : Nat) (msg : Msg) (sigs : List (Signature Sig)) : Check := do
  let weight ← verifySigs crypto committee .duplicateSignature (sigs.map fun sig => (msg, sig)) [] 0
  ensure (quorumWeight ≤ weight) (.signaturesWeight weight quorumWeight)

/-! ### Certificates -/

structure LaneQC (Sig : Type) where
  header : BlockHeader
  sigs : List (Signature Sig)
  deriving DecidableEq

structure AppQC (Sig : Type) where
  proposal : AppProposal
  sigs : List (Signature Sig)
  deriving DecidableEq

structure PrepareQC (Sig : Type) where
  vote : PrepareVote
  sigs : List (Signature Sig)
  deriving DecidableEq

structure CommitQC (Sig : Type) where
  vote : CommitVote
  sigs : List (Signature Sig)
  deriving DecidableEq

def LaneQC.verify (qc : LaneQC Sig) (crypto : Crypto Digest Sig) (committee : Committee) : Check :=
  verifyQC crypto committee committee.laneQuorum (.laneVote qc.header) qc.sigs

def AppQC.verify (qc : AppQC Sig) (crypto : Crypto Digest Sig) (committee : Committee) : Check :=
  verifyQC crypto committee committee.appQuorum (.appVote qc.proposal) qc.sigs

namespace PrepareQC

def proposal (qc : PrepareQC Sig) : Proposal := qc.vote.proposal

def view (qc : PrepareQC Sig) : View := qc.proposal.view

def verify (qc : PrepareQC Sig) (crypto : Crypto Digest Sig) (epoch : Epoch) : Check := do
  qc.proposal.verify epoch
  verifyQC crypto epoch.committee epoch.committee.prepareQuorum (.prepareVote qc.vote) qc.sigs

end PrepareQC

namespace CommitQC

def proposal (qc : CommitQC Sig) : Proposal := qc.vote.proposal

def index (qc : CommitQC Sig) : RoadIndex := qc.proposal.index

def laneRange (qc : CommitQC Sig) (lane : LaneID) : LaneRange := qc.proposal.laneRange lane

def globalRange (qc : CommitQC Sig) : GlobalRange := qc.proposal.globalRange

def verify (qc : CommitQC Sig) (crypto : Crypto Digest Sig) (epoch : Epoch) : Check := do
  qc.proposal.verify epoch
  verifyQC crypto epoch.committee epoch.committee.commitQuorum (.commitVote qc.vote) qc.sigs

end CommitQC

/-- `NewPrepareQC`; the source panics on an empty list. -/
def newPrepareQC : List (Signed PrepareVote Sig) → Option (PrepareQC Sig)
  | [] => none
  | first :: rest => some { vote := first.msg, sigs := (first :: rest).map (·.sig) }

/-- `NewCommitQC`; the source panics on an empty list. -/
def newCommitQC : List (Signed CommitVote Sig) → Option (CommitQC Sig)
  | [] => none
  | first :: rest => some { vote := first.msg, sigs := (first :: rest).map (·.sig) }

/-! ### Defaults of absent values -/

/-- `NextOpt` of a view number. -/
def nextNumberOpt : Option ViewNumber → ViewNumber
  | some number => add64 number 1
  | none => 0

def nextIndexOpt : Option (CommitQC Sig) → RoadIndex
  | some qc => add64 qc.index 1
  | none => 0

/-- `NextViewOpt` of something that is about the given view. -/
def nextViewOpt : Option View → View
  | some view => view.next
  | none => { index := 0, number := 0, epochIndex := 0 }

def laneRangeOpt (qc : Option (CommitQC Sig)) (lane : LaneID) : LaneRange :=
  match qc with
  | some qc => qc.laneRange lane
  | none => .empty lane 0

/-- `NextOpt` of a state proposal. -/
def nextAppOpt : Option AppProposal → RoadIndex
  | some app => app.next
  | none => 0

/-! ### Timeouts -/

def TimeoutVote.verify (vote : TimeoutVote) (epoch : Epoch) : Check := vote.view.verify epoch

def TimeoutVote.latestPrepareQCView (vote : TimeoutVote) : Option View :=
  vote.latestPrepareQC.map fun number => { vote.view with number := number }

structure FullTimeoutVote (Sig : Type) where
  vote : Signed TimeoutVote Sig
  latestPrepareQC : Option (PrepareQC Sig)
  deriving DecidableEq

/-- A non-empty list of timeout votes with the highest prepare certificate they report. The
decoder rejects an empty list and `NewTimeoutQC` panics on it. -/
structure TimeoutQC (Sig : Type) where
  first : Signed TimeoutVote Sig
  rest : List (Signed TimeoutVote Sig)
  latestPrepareQC : Option (PrepareQC Sig)
  deriving DecidableEq

namespace FullTimeoutVote

def view (vote : FullTimeoutVote Sig) : View := vote.vote.msg.view

def verify (vote : FullTimeoutVote Sig) (crypto : Crypto Digest Sig) (epoch : Epoch) : Check := do
  vote.vote.msg.verify epoch
  verifySig crypto epoch.committee (.timeoutVote vote.vote.msg) vote.vote.sig
  match vote.vote.msg.latestPrepareQCView, vote.latestPrepareQC with
  | some want, some qc => do
    inPart "latestPrepareQC" (qc.verify crypto epoch)
    ensure (qc.view = want) .latestPrepareQCView
  | some _, none => .error .missingLatestPrepareQC
  | none, some _ => .error .unnecessaryLatestPrepareQC
  | none, none => .ok ()

end FullTimeoutVote

def newFullTimeoutVote (key : PublicKey) (view : View) (latestPrepareQC : Option (PrepareQC Sig)) :
    FullTimeoutVote Sig where
  vote := sign crypto key .timeoutVote
    { view := view, latestPrepareQC := latestPrepareQC.map fun qc => qc.view.number }
  latestPrepareQC := latestPrepareQC

/-- The loop of `TimeoutQC.Verify` that checks the views of the votes and finds the highest
view number they report. -/
def highestReport (view : View) :
    List (Signed TimeoutVote Sig) → Option ViewNumber → Except VerifyError (Option ViewNumber)
  | [], highest => .ok highest
  | vote :: rest, highest => do
    ensure (vote.msg.view = view) (.voteView vote.sig.key)
    match vote.msg.latestPrepareQC with
    | some number =>
      highestReport view rest (if number ≥ nextNumberOpt highest then some number else highest)
    | none => highestReport view rest highest

namespace TimeoutQC

def votes (qc : TimeoutQC Sig) : List (Signed TimeoutVote Sig) := qc.first :: qc.rest

def view (qc : TimeoutQC Sig) : View := qc.first.msg.view

def verify (qc : TimeoutQC Sig) (crypto : Crypto Digest Sig) (epoch : Epoch)
    (prev : Option (CommitQC Sig)) : Check := do
  qc.first.msg.verify epoch
  ensure (qc.view.index = nextIndexOpt prev) (.timeoutQCIndex qc.view.index (nextIndexOpt prev))
  let weight ← verifySigs crypto epoch.committee .duplicateVote
    (qc.votes.map fun vote => (.timeoutVote vote.msg, vote.sig)) [] 0
  ensure (epoch.committee.timeoutQuorum ≤ weight)
    (.votesWeight weight epoch.committee.timeoutQuorum)
  let highest ← highestReport qc.view qc.votes none
  match highest, qc.latestPrepareQC with
  | some number, some prepareQC => do
    ensure (prepareQC.view = { qc.view with number := number }) .latestPrepareQCView
    inPart "higPrepareQC" (prepareQC.verify crypto epoch)
  | some _, none => .error .missingLatestPrepareQC
  | none, some _ => .error .unnecessaryLatestPrepareQC
  | none, none => .ok ()

/-- The proposal that the next view has to repeat, if the votes report one. -/
def reproposal (qc : TimeoutQC Sig) : Option Proposal :=
  qc.latestPrepareQC.map fun prepareQC =>
    newProposal qc.view.next prepareQC.proposal.timestamp prepareQC.proposal.laneRanges.ranges
      prepareQC.proposal.app prepareQC.proposal.globalRange.first

end TimeoutQC

/-- One round of the loop of `NewTimeoutQC` that keeps the prepare certificate of the highest
view. -/
def keepLatestPrepareQC (latest : Option (PrepareQC Sig)) (vote : FullTimeoutVote Sig) :
    Option (PrepareQC Sig) :=
  if (nextViewOpt (latest.map PrepareQC.view)).less
      (nextViewOpt (vote.latestPrepareQC.map PrepareQC.view))
  then vote.latestPrepareQC else latest

/-- `NewTimeoutQC`; the source panics on an empty list. -/
def newTimeoutQC : List (FullTimeoutVote Sig) → Option (TimeoutQC Sig)
  | [] => none
  | first :: rest => some {
      first := first.vote
      rest := rest.map (·.vote)
      latestPrepareQC := (first :: rest).foldl keepLatestPrepareQC none }

/-! ### Proposals with their justification -/

/-- The local context of a view: the certificates that justify it and the epoch. -/
structure ViewSpec (Sig : Type) where
  commitQC : Option (CommitQC Sig)
  timeoutQC : Option (TimeoutQC Sig)
  epoch : Epoch

namespace ViewSpec

variable (spec : ViewSpec Sig)

def nextGlobalBlock : GlobalBlockNumber :=
  match spec.commitQC with
  | some qc => qc.globalRange.next
  | none => spec.epoch.firstBlock

/-- The view that the certificates justify. -/
def view : View :=
  let index := nextIndexOpt spec.commitQC
  let timedOut := nextViewOpt (spec.timeoutQC.map TimeoutQC.view)
  if timedOut.index = index then { timedOut with epochIndex := spec.epoch.epochIndex }
  else { index := index, number := 0, epochIndex := spec.epoch.epochIndex }

def nextTimestamp : Timestamp :=
  match spec.commitQC with
  | some qc => qc.proposal.nextTimestamp
  | none => spec.epoch.firstTimestamp

end ViewSpec

/-- `Leader`: the replica drawn for a view. -/
def leader (view : View) : Option PublicKey :=
  committee.randomReplica crypto.sha256 (bigEndian 8 view.index ++ bigEndian 8 view.number)

abbrev LaneQCs (Sig : Type) := List (LaneID × LaneQC Sig)

structure FullProposal (Sig : Type) where
  proposal : Signed Proposal Sig
  laneQCs : LaneQCs Sig
  appQC : Option (AppQC Sig)
  timeoutQC : Option (TimeoutQC Sig)
  deriving DecidableEq

namespace FullProposal

variable [DecidableEq Digest]

def view (full : FullProposal Sig) : View := full.proposal.msg.view

variable (full : FullProposal Sig)

def laneQC (lane : LaneID) : Option (LaneQC Sig) :=
  (full.laneQCs.find? fun entry => entry.1 = lane).map Prod.snd

/-- One lane range continues the previous commit certificate and has its lane certificate. -/
def verifyLane (crypto : Crypto Digest Sig) (spec : ViewSpec Sig) (lane : LaneID) : Check := do
  let range := full.proposal.msg.laneRange lane
  let want := (laneRangeOpt spec.commitQC range.lane).next
  ensure (range.first = want) (.laneRangeFirst range.lane range.first want)
  if range.first < range.next then
    match full.laneQC range.lane with
    | none => .error (.missingLaneQC range.lane)
    | some qc => do
      ensure (qc.header.blockNumber = sub64 range.next 1)
        (.laneQCNumber range.lane qc.header.blockNumber (sub64 range.next 1))
      ensure (crypto.headerHash qc.header = range.lastHash)
        (.laneQCHash range.lane (crypto.headerHash qc.header) range.lastHash)
      inPart "qc" (qc.verify crypto spec.epoch.committee)
  else .ok ()

/-- The state proposal does not go back, and one that goes forward has its certificate. -/
def verifyApp (crypto : Crypto Digest Sig) (spec : ViewSpec Sig) : Check :=
  let proposal := full.proposal.msg
  let got := nextAppOpt proposal.app
  let wantMin := nextAppOpt (spec.commitQC.bind fun qc => qc.proposal.app)
  if got < wantMin then .error .appLower
  else if got = wantMin then ensure (full.appQC.isNone) .unnecessaryAppQC
  else
    match proposal.app, full.appQC with
    | some app, some appQC => do
      ensure (app.epochIndex = proposal.epochIndex) (.appEpochIndex app.epochIndex proposal.epochIndex)
      ensure (crypto.hash (.appVote appQC.proposal) = crypto.hash (.appVote app)) .appQCMismatch
      inPart "appQC" (appQC.verify crypto spec.epoch.committee)
      ensure (appQC.proposal.globalNumber < spec.nextGlobalBlock)
        (.appQCNumber appQC.proposal.globalNumber spec.nextGlobalBlock)
    | some app, none => do
      ensure (app.epochIndex = proposal.epochIndex) (.appEpochIndex app.epochIndex proposal.epochIndex)
      .error .missingAppQC
    -- not reached: an absent state proposal counts as zero, which is never above `wantMin`
    | none, _ => .error .missingAppQC

/-- The checks of a proposal that repeats nothing. -/
def verifyFresh (crypto : Crypto Digest Sig) (spec : ViewSpec Sig) : Check := do
  inPart "proposal" (full.proposal.msg.verify spec.epoch)
  checkAll (full.verifyLane crypto spec) spec.epoch.committee.lanes
  full.verifyApp crypto spec

/-- `FullProposal.Verify`. The source runs the checks of certificates in parallel with the
others and reports any error that occurs; the model reports the first one in this order. -/
def verify (full : FullProposal Sig) (crypto : Crypto Digest Sig) (spec : ViewSpec Sig) :
    Check := do
  let proposal := full.proposal.msg
  ensure (proposal.view = spec.view) .wrongView
  ensure (proposal.globalRange.first = spec.nextGlobalBlock)
    (.globalFirst proposal.globalRange.first spec.nextGlobalBlock)
  ensure (spec.nextTimestamp ≤ proposal.timestamp)
    (.timestamp proposal.timestamp spec.nextTimestamp)
  ensure (some full.proposal.sig.key = leader crypto spec.epoch.committee spec.view)
    (.proposer full.proposal.sig.key (leader crypto spec.epoch.committee spec.view))
  inPart "proposal signature"
    (verifySig crypto spec.epoch.committee (.proposal proposal) full.proposal.sig)
  ensure (nextViewOpt (spec.timeoutQC.map TimeoutQC.view) =
    nextViewOpt (full.timeoutQC.map TimeoutQC.view)) .inconsistentTimeoutQC
  match full.timeoutQC with
  | none => full.verifyFresh crypto spec
  | some timeoutQC => do
    inPart "timeoutQC" (timeoutQC.verify crypto spec.epoch spec.commitQC)
    match timeoutQC.reproposal with
    | none => full.verifyFresh crypto spec
    | some want => do
      ensure (full.laneQCs.length = 0 ∧ full.appQC.isNone) .unnecessaryReproposalData
      ensure (crypto.hash (.proposal want) = crypto.hash (.proposal proposal)) .wantReproposal

end FullProposal

end SeiChain.Autobahn
