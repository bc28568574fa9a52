/-
This file connects certificates to the votes that honest replicas signed. The
log of a network holds every vote that an honest replica has signed, newest
first. A message is authentic if each valid signature of an honest replica on a
vote in it is on a vote of the log: signatures are not forged. Read road by
road, the log is a log of locked voting, an authentic certificate that verifies
is a certificate of locked voting, and an authentic timeout certificate carries
the lock that its prepare certificate names.
-/

import SeiChain.Autobahn.Certificates
import SeiChain.Autobahn.Consensus

namespace SeiChain.Autobahn

open Library List Function TimeoutQC

variable {Digest Sig : Type} {crypto : Crypto Digest Sig} {epoch : Epoch}
  {byzantine : Finset PublicKey}

/-! ### Authentic messages -/

/-- The votes that honest replicas have signed, newest first. -/
abbrev SignedLog := List (PublicKey × Msg)

/-- The messages whose signatures agreement rests on. -/
def Msg.isVote : Msg → Bool
  | .prepareVote _ | .commitVote _ | .timeoutVote _ => true
  | .laneVote _ | .appVote _ | .proposal _ => false

/-- Valid signatures of honest replicas on votes are on votes that they signed. -/
def Authentic (crypto : Crypto Digest Sig) (byzantine : Finset PublicKey) (log : SignedLog)
    (signed : SignedMsgs Sig) : Prop :=
  ∀ entry ∈ signed, entry.2.key ∉ byzantine → entry.1.isVote →
    crypto.verifyWithTag entry.2.key (crypto.hash entry.1) entry.2.sig = true →
    (entry.2.key, entry.1) ∈ log

instance (log : SignedLog) (signed : SignedMsgs Sig) :
    Decidable (Authentic crypto byzantine log signed) :=
  inferInstanceAs (Decidable (∀ entry ∈ signed, entry.2.key ∉ byzantine → entry.1.isVote →
    crypto.verifyWithTag entry.2.key (crypto.hash entry.1) entry.2.sig = true →
    (entry.2.key, entry.1) ∈ log))

variable {log larger : SignedLog} {signed : SignedMsgs Sig}

theorem Authentic.mono (authentic : Authentic crypto byzantine log signed) (grows : log ⊆ larger) :
    Authentic crypto byzantine larger signed := fun entry member honest vote valid =>
  grows (authentic entry member honest vote valid)

theorem authentic_append {first second : SignedMsgs Sig} :
    Authentic crypto byzantine log (first ++ second) ↔
      Authentic crypto byzantine log first ∧ Authentic crypto byzantine log second := by
  simp only [Authentic, mem_append, or_imp, forall_and]

/-- The signatures of an optional certificate. -/
def signedOpt {QC : Type} (signed : QC → SignedMsgs Sig) :
    Option QC → SignedMsgs Sig
  | some qc => signed qc
  | none => []

/-- All signatures of a timeout certificate, those of its prepare certificate included. -/
def TimeoutQC.allSigned (qc : TimeoutQC Sig) : SignedMsgs Sig :=
  qc.signed ++ signedOpt PrepareQC.signed qc.latestPrepareQC

def FullTimeoutVote.allSigned (vote : FullTimeoutVote Sig) : SignedMsgs Sig :=
  [(.timeoutVote vote.vote.msg, vote.vote.sig)] ++ signedOpt PrepareQC.signed vote.latestPrepareQC

def FullProposal.allSigned (full : FullProposal Sig) : SignedMsgs Sig :=
  [(.proposal full.proposal.msg, full.proposal.sig)] ++
    full.laneQCs.flatMap (fun entry => entry.2.sigs.map fun sig => (.laneVote entry.2.header, sig)) ++
    signedOpt (fun qc => qc.sigs.map fun sig => (.appVote qc.proposal, sig)) full.appQC ++
    signedOpt TimeoutQC.allSigned full.timeoutQC

variable {key : PublicKey}

/-- A signer of a verified certificate that is honest has signed what the certificate says. -/
theorem SignedByQuorum.signed_of_honest {committee : Committee} {quorumWeight : Nat}
    (quorum : SignedByQuorum crypto committee quorumWeight signed)
    (authentic : Authentic crypto byzantine log signed)
    (votes : ∀ entry ∈ signed, entry.1.isVote) (member : key ∈ (signerKeys signed).toFinset)
    (honest : key ∉ byzantine) : ∃ entry ∈ signed, entry.2.key = key ∧ (key, entry.1) ∈ log := by
  rw [mem_toFinset, signerKeys, mem_map] at member
  obtain ⟨entry, isEntry, rfl⟩ := member
  exact ⟨entry, isEntry, rfl,
    authentic entry isEntry honest (votes entry isEntry) (quorum.valid entry isEntry)⟩

/-! ### The votes of one road -/

/-- A vote for a view of the given road, as a vote of locked voting about contents. -/
def lockedVote (epoch : Epoch) (index : RoadIndex) :
    PublicKey × Msg → Option (PublicKey × LockedVote Proposal.Content)
  | (key, .prepareVote vote) =>
    if vote.proposal.view.index = index ∧ vote.proposal.view.epochIndex = epoch.epochIndex then
      some (key, .prepare vote.proposal.view.number vote.proposal.content)
    else none
  | (key, .commitVote vote) =>
    if vote.proposal.view.index = index ∧ vote.proposal.view.epochIndex = epoch.epochIndex then
      some (key, .commit vote.proposal.view.number vote.proposal.content)
    else none
  | (key, .timeoutVote vote) =>
    if vote.view.index = index ∧ vote.view.epochIndex = epoch.epochIndex then
      some (key, .timeout vote.view.number vote.latestPrepareQC)
    else none
  | (_, .laneVote _) | (_, .appVote _) | (_, .proposal _) => none

def roadVotes (epoch : Epoch) (index : RoadIndex) (log : SignedLog) :
    VoteLog PublicKey Proposal.Content :=
  log.filterMap (lockedVote epoch index)

variable {index : RoadIndex} {number : ViewNumber}

theorem mem_roadVotes {vote : LockedVote Proposal.Content} :
    (key, vote) ∈ roadVotes epoch index log ↔ match vote with
      | .prepare number content => ∃ vote, (key, .prepareVote vote) ∈ log ∧
          vote.proposal.content = content ∧ vote.proposal.view = ⟨index, number, epoch.epochIndex⟩
      | .commit number content => ∃ vote, (key, .commitVote vote) ∈ log ∧
          vote.proposal.content = content ∧ vote.proposal.view = ⟨index, number, epoch.epochIndex⟩
      | .timeout number report => ∃ vote, (key, .timeoutVote vote) ∈ log ∧
          vote.latestPrepareQC = report ∧ vote.view = ⟨index, number, epoch.epochIndex⟩ := by
  rw [roadVotes, mem_filterMap]
  constructor
  · rintro ⟨⟨signer, msg⟩, inLog, isVote⟩
    cases msg <;> simp only [lockedVote, Option.ite_none_right_eq_some, Option.some.injEq,
      Prod.mk.injEq, reduceCtorEq] at isVote
    all_goals
      obtain ⟨⟨rfl, sameEpoch⟩, rfl, rfl⟩ := isVote
      exact ⟨_, inLog, rfl, by rw [← sameEpoch]⟩
  · cases vote
    all_goals
      rintro ⟨vote, inLog, rfl, view⟩
      exact ⟨_, inLog, by simp [lockedVote, view]⟩

/-! ### Certificates of locked voting -/

section Certified

variable (light : byzantine.sum epoch.committee.weight ≤ epoch.committee.faulty)

theorem view_eq_of_epochIndex {view : View} (sameEpoch : view.epochIndex = epoch.epochIndex) :
    view = ⟨view.index, view.number, epoch.epochIndex⟩ := by
  rw [← sameEpoch]

/-- A quorum that signed one vote of the road makes a certificate. -/
theorem SignedByQuorum.certified {msg : Msg} {sigs : List (Signature Sig)}
    {vote : LockedVote Proposal.Content}
    (quorum : SignedByQuorum crypto epoch.committee epoch.committee.commitQuorum
      (sigs.map fun sig => (msg, sig)))
    (authentic : Authentic crypto byzantine log (sigs.map fun sig => (msg, sig)))
    (isVote : msg.isVote)
    (counts : ∀ {key}, (key, msg) ∈ log → (key, vote) ∈ roadVotes epoch index log) :
    (epoch.committee.quorumSystem byzantine light).Certified (roadVotes epoch index log) vote := by
  refine ⟨_, ⟨quorum.members, quorum.heavy⟩, fun key member honest => ?_⟩
  have votes : ∀ entry ∈ sigs.map fun sig => (msg, sig), entry.1.isVote := by
    intro entry isEntry
    obtain ⟨sig, _, rfl⟩ := mem_map.mp isEntry
    exact isVote
  obtain ⟨entry, isEntry, _, inLog⟩ := quorum.signed_of_honest authentic votes member honest
  obtain ⟨sig, _, rfl⟩ := mem_map.mp isEntry
  exact counts inLog

theorem certified_of_prepareQC {qc : PrepareQC Sig} (verified : qc.verify crypto epoch = .ok ())
    (authentic : Authentic crypto byzantine log qc.signed) :
    (epoch.committee.quorumSystem byzantine light).Certified (roadVotes epoch qc.view.index log)
      (.prepare qc.view.number qc.proposal.content) := by
  obtain ⟨viewVerified, quorum⟩ := PrepareQC.verify_spec verified
  exact quorum.certified light authentic rfl fun inLog => mem_roadVotes.mpr
    ⟨qc.vote, inLog, rfl, view_eq_of_epochIndex (View.epochIndex_of_verify viewVerified)⟩

theorem certified_of_commitQC {qc : CommitQC Sig} (verified : qc.verify crypto epoch = .ok ())
    (authentic : Authentic crypto byzantine log qc.signed) :
    (epoch.committee.quorumSystem byzantine light).Certified (roadVotes epoch qc.index log)
      (.commit qc.proposal.view.number qc.proposal.content) := by
  obtain ⟨viewVerified, quorum⟩ := CommitQC.verify_spec verified
  exact quorum.certified light authentic rfl fun inLog => mem_roadVotes.mpr
    ⟨qc.vote, inLog, rfl, view_eq_of_epochIndex (View.epochIndex_of_verify viewVerified)⟩

/-- The lock that a timeout certificate carries into the next view. -/
def TimeoutQC.lock (qc : TimeoutQC Sig) : Option (Nat × Proposal.Content) :=
  qc.latestPrepareQC.map fun prepareQC => (prepareQC.view.number, prepareQC.proposal.content)

theorem timeoutCertified_of_sound {qc : TimeoutQC Sig} (sound : qc.Sound crypto epoch)
    (authentic : Authentic crypto byzantine log qc.allSigned) :
    (epoch.committee.quorumSystem byzantine light).TimeoutCertified
      (roadVotes epoch qc.view.index log) qc.view.number qc.lock := by
  obtain ⟨votesAuthentic, prepareAuthentic⟩ := authentic_append.mp authentic
  constructor
  · refine ⟨_, ⟨sound.quorum.members, sound.quorum.heavy⟩, fun key member honest => ?_⟩
    have votes : ∀ entry ∈ qc.signed, entry.1.isVote := by
      intro entry isEntry
      obtain ⟨vote, _, rfl⟩ := mem_map.mp isEntry
      rfl
    obtain ⟨entry, isEntry, _, inLog⟩ :=
      sound.quorum.signed_of_honest votesAuthentic votes member honest
    obtain ⟨vote, isVote, rfl⟩ := mem_map.mp isEntry
    refine ⟨vote.msg.latestPrepareQC, mem_roadVotes.mpr ⟨vote.msg, inLog, rfl, ?_⟩, ?_⟩
    · rw [sound.views vote isVote]
      exact view_eq_of_epochIndex sound.epochIndex
    · intro number reported
      obtain ⟨prepareQC, inherited, above⟩ := sound.reports vote isVote number reported
      exact ⟨_, _, by rw [lock, inherited, Option.map_some], above⟩
  · intro top content locked
    obtain ⟨prepareQC, inherited, isLock⟩ := Option.map_eq_some_iff.mp locked
    obtain ⟨verified, sameRoad⟩ := sound.prepared prepareQC inherited
    rw [inherited] at prepareAuthentic
    cases isLock
    rw [← sameRoad]
    exact certified_of_prepareQC light verified prepareAuthentic

end Certified

/-! ### Votes that an aggregator collects -/

/-- All votes of a book are authentic and filed under what they are for, and its certificate
is authentic. -/
structure VoteBook.AuthenticBook {Group Vote QC : Type} (crypto : Crypto Digest Sig)
    (byzantine : Finset PublicKey) (log : SignedLog) (kind : VoteKind Group Vote QC)
    (voteSigned : Vote → SignedMsgs Sig) (qcSigned : QC → SignedMsgs Sig)
    (book : VoteBook Group Vote QC) : Prop where
  votes : ∀ group set, book.byGroup group = some set → ∀ entry ∈ set.votes,
    kind.group entry.2 = group ∧ Authentic crypto byzantine log (voteSigned entry.2)
  qc : ∀ qc, book.qc = some qc → Authentic crypto byzantine log (qcSigned qc)

namespace VoteBook

variable {Group Vote QC : Type} {kind : VoteKind Group Vote QC}
  {voteSigned : Vote → SignedMsgs Sig}
  {qcSigned : QC → SignedMsgs Sig} {book : VoteBook Group Vote QC}

theorem AuthenticBook.mono
    (authentic : AuthenticBook crypto byzantine log kind voteSigned qcSigned book)
    (grows : log ⊆ larger) :
    AuthenticBook crypto byzantine larger kind voteSigned qcSigned book where
  votes group set isSet entry member :=
    ⟨(authentic.votes group set isSet entry member).1,
      (authentic.votes group set isSet entry member).2.mono grows⟩
  qc qc isQC := (authentic.qc qc isQC).mono grows

variable {committee : Committee}
  (authentic : AuthenticBook crypto byzantine log kind voteSigned qcSigned book)

include authentic

theorem AuthenticBook.removeVote [DecidableEq Group] (key : PublicKey) (group : Group) :
    AuthenticBook crypto byzantine log kind voteSigned qcSigned
      (book.removeVote committee key group) := by
  unfold VoteBook.removeVote
  split
  · exact authentic
  · rename_i set isSet
    refine ⟨fun other otherSet isOther entry member => ?_, authentic.qc⟩
    dsimp only at isOther
    by_cases same : other = group
    · subst same
      rw [update_self] at isOther
      split at isOther <;> cases isOther
      exact authentic.votes other set isSet entry (mem_of_mem_filter member)
    · rw [update_of_ne same] at isOther
      exact authentic.votes other otherSet isOther entry member

variable {vote : Vote}

theorem AuthenticBook.insertVote [DecidableEq Group]
    (voteAuthentic : Authentic crypto byzantine log (voteSigned vote)) :
    AuthenticBook crypto byzantine log kind voteSigned qcSigned
      (book.insertVote committee kind vote) := by
  refine ⟨fun group set isSet entry member => ?_, authentic.qc⟩
  simp only [VoteBook.insertVote] at isSet
  by_cases same : group = kind.group vote
  · subst same
    rw [update_self] at isSet
    cases isSet
    rcases mem_cons.mp member with rfl | old
    · exact ⟨rfl, voteAuthentic⟩
    · have before := mem_of_mem_filter old
      cases filed : book.byGroup (kind.group vote) with
      | none => simp [filed] at before
      | some set =>
        rw [filed] at before
        exact authentic.votes _ set filed entry before
  · rw [update_of_ne same] at isSet
    exact authentic.votes group set isSet entry member

/-- Votes of one group make an authentic certificate. -/
def MakesAuthentic (crypto : Crypto Digest Sig) (byzantine : Finset PublicKey) (log : SignedLog)
    (kind : VoteKind Group Vote QC) (voteSigned : Vote → SignedMsgs Sig)
    (qcSigned : QC → SignedMsgs Sig) : Prop :=
  ∀ group votes qc, (∀ vote ∈ votes, kind.group vote = group ∧
    Authentic crypto byzantine log (voteSigned vote)) → kind.newQC votes = some qc →
    Authentic crypto byzantine log (qcSigned qc)

section

variable (makes : MakesAuthentic crypto byzantine log kind voteSigned qcSigned)

include makes

theorem AuthenticBook.updateQC :
    AuthenticBook crypto byzantine log kind voteSigned qcSigned
      (book.updateQC committee kind vote) := by
  unfold VoteBook.updateQC
  split
  · exact authentic
  · rename_i set isSet
    split
    · exact authentic
    · split
      · exact authentic
      · refine ⟨authentic.votes, fun qc isQC => ?_⟩
        refine makes (kind.group vote) _ qc (fun other member => ?_) isQC
        obtain ⟨entry, inSet, rfl⟩ := mem_map.mp member
        exact authentic.votes _ set isSet entry inSet

theorem AuthenticBook.pushVote [DecidableEq Group]
    (voteAuthentic : Authentic crypto byzantine log (voteSigned vote)) :
    AuthenticBook crypto byzantine log kind voteSigned qcSigned
      (book.pushVote committee kind vote) := by
  unfold VoteBook.pushVote
  split
  · exact (authentic.insertVote voteAuthentic).updateQC makes
  · split
    · exact ((authentic.removeVote _ _).insertVote voteAuthentic).updateQC makes
    · exact authentic

end

end VoteBook

/-- All votes of a group have one hash, so they are the same vote. -/
theorem authentic_of_sameHash {M : Type} {message : M → Msg} (injective : Injective message)
    {first : Signed M Sig} {votes : List (Signed M Sig)} {group : Digest}
    (authentic : ∀ vote ∈ first :: votes, crypto.hash (message vote.msg) = group ∧
      Authentic crypto byzantine log [(message vote.msg, vote.sig)]) :
    Authentic crypto byzantine log
      (((first :: votes).map fun vote => vote.sig).map fun sig => (message first.msg, sig)) := by
  intro entry member
  obtain ⟨sig, isSig, rfl⟩ := mem_map.mp member
  obtain ⟨vote, isVote, rfl⟩ := mem_map.mp isSig
  have same : vote.msg = first.msg := injective (crypto.hash_injective
    ((authentic vote isVote).1.trans (authentic first mem_cons_self).1.symm))
  exact (authentic vote isVote).2 _ (by simp [same])

theorem prepareVotes_makesAuthentic (log : SignedLog) :
    VoteBook.MakesAuthentic crypto byzantine log (prepareVoteKind crypto)
      (fun vote => [(.prepareVote vote.msg, vote.sig)]) PrepareQC.signed := by
  intro group votes qc authentic made
  cases votes with
  | nil => cases made
  | cons first =>
    cases made
    exact authentic_of_sameHash (fun _ _ => Msg.prepareVote.inj) authentic

theorem commitVotes_makesAuthentic (log : SignedLog) :
    VoteBook.MakesAuthentic crypto byzantine log (commitVoteKind crypto)
      (fun vote => [(.commitVote vote.msg, vote.sig)]) CommitQC.signed := by
  intro group votes qc authentic made
  cases votes with
  | nil => cases made
  | cons first =>
    cases made
    exact authentic_of_sameHash (fun _ _ => Msg.commitVote.inj) authentic

/-- The prepare certificate that `NewTimeoutQC` keeps is the one it started with or that of one
of the votes. -/
theorem mem_of_foldl_keepLatestPrepareQC {votes : List (FullTimeoutVote Sig)}
    {start : Option (PrepareQC Sig)} {qc : PrepareQC Sig}
    (latest : votes.foldl keepLatestPrepareQC start = some qc) :
    start = some qc ∨ ∃ vote ∈ votes, vote.latestPrepareQC = some qc := by
  induction votes generalizing start with
  | nil => exact .inl latest
  | cons vote rest ih =>
    rcases ih latest with kept | ⟨other, member, isQC⟩
    · unfold keepLatestPrepareQC at kept
      split at kept
      · exact .inr ⟨vote, .head _, kept⟩
      · exact .inl kept
    · exact .inr ⟨other, .tail _ member, isQC⟩

theorem timeoutVotes_makesAuthentic (log : SignedLog) :
    VoteBook.MakesAuthentic crypto byzantine log timeoutVoteKind FullTimeoutVote.allSigned
      allSigned := by
  intro group votes qc authentic made
  cases votes with
  | nil => cases made
  | cons first rest =>
    cases made
    refine authentic_append.mpr ⟨fun entry member => ?_, ?_⟩
    · have isVote : ∃ vote ∈ first :: rest, entry = (.timeoutVote vote.vote.msg, vote.vote.sig) := by
        simpa [signed, votes, eq_comm] using member
      obtain ⟨vote, inVotes, rfl⟩ := isVote
      exact (authentic vote inVotes).2 _ (by simp [FullTimeoutVote.allSigned])
    · cases latest : (first :: rest).foldl keepLatestPrepareQC none with
      | none => exact fun _ member => nomatch member
      | some qc =>
        rcases mem_of_foldl_keepLatestPrepareQC latest with absent | ⟨vote, inVotes, isQC⟩
        · cases absent
        · have both := (authentic vote inVotes).2
          rw [FullTimeoutVote.allSigned, isQC] at both
          exact (authentic_append.mp both).2

end SeiChain.Autobahn
